import XfceLinux.Lib.Grep
import XfceLinux.Lib.Jsonload
import XfceLinux.Lib.Shell

/-!
# `scripts/fisherman-install.sh`

The wrapper runs `fisherman`. Where the log shows that only the hostname could not be written,
it goes on, mounts the installed root again and writes the hostname itself. It runs under
`set -euo pipefail`: a command that fails ends it, unless it is a condition or is followed by
`||`. How the commands end and what they print is the `Env`. What the script prints itself
is accepted.
-/

namespace XfceLinux.Install

open Lib Lib.Text Lib.Regex Lib.Shell Lib.Shell.Script

/-! ## What the script reads -/

/-- What `$(…)` gives for what a command prints: no NULs, and no newlines at the end. -/
def capture (s : Str) : Str := rstrip (· == '\n') (s.filter (· != '\x00'))

/-- `lsblk -nrpo NAME,FSTYPE /dev/vda`, with the status of the pipeline that it stands in. -/
structure Lsblk where
  rows : List Str
  status : Nat

structure Env where
  /-- The exit status of `fisherman`. -/
  fisherman : Nat
  /-- `/tmp/fish.log` -/
  log : Str
  /-- The status of `cat /tmp/fish.log`. -/
  cat : Nat
  /-- The text of the recipe, empty if it cannot be read. -/
  recipe : Str
  /-- What Python prints for a value that is not a string. -/
  repr : Jsonload.Value → Str
  /-- The table that `LUKS_DEV` is taken from. -/
  lsblkLuks : Lsblk
  /-- The table that `ROOT_DEV` is taken from. -/
  lsblkRoot : Lsblk
  /-- The status of `mktemp -d`. -/
  mktemp : Nat
  /-- `MNT` -/
  mnt : Str
  /-- `MAPPER` -/
  mapper : Str
  /-- The status of `cryptsetup luksOpen`. -/
  luksOpen : Nat
  /-- `/tmp/cryptsetup-err.log` -/
  cryptsetupErr : Str
  /-- The status of `mount`, which is called at most once. -/
  mount : Nat
  /-- The lines that `find` prints for the directories called `etc`, down to a depth. -/
  find : Str → Nat → List Str
  /-- Whether `etc/hostname` of the deployment is written. -/
  writeHostname : Nat
  /-- The status of `mkdir -p` in the deployment. -/
  mkdir : Nat
  /-- Whether `override.conf` of the deployment is written. -/
  writeOverride : Nat
  /-- The statuses of the commands that give back what the script holds. -/
  umount : Nat
  luksClose : Nat
  rmdir : Nat

/-! ## The log -/

/-- The two `grep`s for a failure to write the hostname, and nothing else. -/
def hostnameFailure (log : Str) : Bool :=
  contains "writing hostname".toList log &&
    (contains "ostree admin --print-current-dir".toList log ||
      (contains "composefs deploy".toList log || contains "state/deploy".toList log ||
        contains "no such file or directory".toList log))

/-! ## The partitions -/

/-- The fields of a line for `awk`. -/
def fields (row : Str) : List Str := (row.splitOnP fun c => c == ' ' || c == '\t').filter (· ≠ [])

/-- What `$2==…{print $1}` prints for a line, given the values that `$2` is compared with. -/
def awkRow (fstypes : List Str) (row : Str) : Option Str :=
  match fields row with
  | name :: fstype :: _ => if fstypes.contains fstype then some name else none
  | _ => none

/-- `awk '$2==…{print $1;exit}'` -/
def awk (fstypes rows : List Str) : Str := (rows.findSome? (awkRow fstypes)).getD []

def luksDev (env : Env) : Str := awk ["crypto_LUKS".toList] env.lsblkLuks.rows

def rootDev (env : Env) : Str := awk ["btrfs".toList, "xfs".toList] env.lsblkRoot.rows

/-! ## The recipe -/

/-- `d.get('encryption', {}).get('passphrase', '')`: `none` is an exception. -/
def getPassphrase : Jsonload.Value → Option Jsonload.Value
  | .obj members =>
    match (Jsonload.Value.obj members).get? "encryption".toList with
    | none => some (.str [])
    | some (.obj inner) =>
      some (((Jsonload.Value.obj inner).get? "passphrase".toList).getD (.str []))
    | some _ => none
  | _ => none

/-- `PASSPHRASE` -/
def passphrase (env : Env) : Str :=
  match Jsonload.loads env.recipe >>= getPassphrase with
  | some (.str s) => capture (s ++ ['\n'])
  | some v => capture (env.repr v ++ ['\n'])
  | none => []

/-- `[[:space:]]` -/
def posixSpace (c : Char) : Bool := c == ' ' || (9 ≤ c.toNat && c.toNat ≤ 13)

/-- `"hostname"[[:space:]]*:[[:space:]]*"[^"]*"` -/
def hostnameRe : Re :=
  Regex.cat [lit "\"hostname\"", .star (.set posixSpace), lit ":", .star (.set posixSpace),
    lit "\"", .star (.set (· != '"')), lit "\""]

/-- `"[^"]*"$` -/
def quotedRe : Re := Regex.cat [lit "\"", .star (.set (· != '"')), lit "\"", .eos]

/-- `HOSTNAME`. The pipeline fails where a `grep` finds nothing. -/
def hostname (recipe : Str) : Str :=
  let values := grep quotedRe (grep hostnameRe (recipe.splitOn '\n'))
  capture (if values.isEmpty then "xfce-linux\n".toList
    else (Lines.unlines '\n' values).filter (· != '"'))

/-- An argument that `echo` takes as options. -/
def echoOption : Str → Bool
  | '-' :: c :: s => (c :: s).all ['n', 'e', 'E'].contains
  | _ => false

/-- `echo "$s"` -/
def echo (s : Str) : Str :=
  if echoOption s then if s.contains 'n' then [] else ['\n'] else s ++ ['\n']

/-! ## The deployment -/

/-- `head -1` -/
def head1 (lines : List Str) : Str := lines.headD []

/-- The search in the layout of composefs. -/
def bootcDeploy (env : Env) : List Str := env.find (env.mnt ++ "/ostree/bootc/deploy".toList) 3

/-- The search in the layout of ostree. -/
def ostreeDeploy (env : Env) : List Str := env.find (env.mnt ++ "/ostree/deploy".toList) 4

/-- `DEPLOY_ETC` -/
def deployEtc (env : Env) : Str :=
  if head1 (bootcDeploy env) = [] then head1 (ostreeDeploy env) else head1 (bootcDeploy env)

def overrideDir (etc : Str) : Str :=
  etc ++ "/systemd/system/rechunker-group-fix.service.d".toList

def overrideText : Str := "[Unit]\nDefaultDependencies=no\n".toList

/-! ## The script -/

structure State where
  /-- What has been printed. -/
  stdout : List Str := []
  /-- The files that have been written, with their contents. -/
  files : List (Str × Str) := []
  /-- `MNT` exists. -/
  directory : Bool := false
  /-- `MAPPER` is open. -/
  unlocked : Bool := false
  /-- The root is mounted at `MNT`. -/
  mounted : Bool := false

def say (line : Str) : Script State Unit := update fun s => { s with stdout := s.stdout ++ [line] }

def write (path content : Str) : Script State Unit :=
  update fun s => { s with files := s.files ++ [(path, content)] }

/-- `PATCH_HOSTNAME`, from the status and the log of `fisherman`. -/
def classify (env : Env) : Script State Bool := do
  check env.cat
  say env.log
  if env.fisherman ≠ 0 then
    if hostnameFailure env.log then do
      say ("==> fisherman hostname write failed (composefs/ostree compat bug) — " ++
        "patching manually").toList
      pure true
    else do
      say ("==> fisherman failed for a non-hostname reason (rc=".toList ++
        (toString env.fisherman).toList ++ ") — propagating".toList)
      exit env.fisherman
  else do
    say "==> fisherman succeeded — applying post-install overrides directly".toList
    pure false

/-- The device detection: `luksDev`, `rootDev` and `MNT`. -/
def detect (env : Env) : Script State Unit := do
  check env.lsblkLuks.status
  check env.lsblkRoot.status
  check env.mktemp
  update fun s => { s with directory := true }

/-- `cryptsetup luksClose "$MAPPER" || true` -/
def luksClose (env : Env) : Script State Unit :=
  update fun s => { s with unlocked := s.unlocked && env.luksClose ≠ 0 }

def notApplied (message : Str) : Script State Bool := do
  say ("ERROR: ".toList ++ message ++ " — post-install patch not applied".toList)
  pure false

/-- Unlocking and mounting a LUKS install: `MOUNTED`. -/
def mountLuks (env : Env) : Script State Bool :=
  if passphrase env = [] then
    notApplied "could not extract LUKS passphrase from recipe".toList
  else if env.luksOpen = 0 then do
    update fun s => { s with unlocked := true }
    if env.mount = 0 then do
      update fun s => { s with mounted := true }
      pure true
    else do
      let mounted ← notApplied ("mount /dev/mapper/".toList ++ env.mapper ++ " failed".toList)
      say env.cryptsetupErr
      luksClose env
      pure mounted
  else do
    let mounted ← notApplied ("cryptsetup luksOpen ".toList ++ luksDev env ++ " failed".toList)
    say env.cryptsetupErr
    pure mounted

/-- Mounting a plain install: `MOUNTED`. -/
def mountPlain (env : Env) : Script State Bool :=
  if env.mount = 0 then do
    update fun s => { s with mounted := true }
    pure true
  else notApplied ("mount ".toList ++ rootDev env ++ " failed".toList)

/-- `MOUNTED` -/
def mountRoot (env : Env) : Script State Bool :=
  if luksDev env ≠ [] then mountLuks env
  else if rootDev env ≠ [] then mountPlain env
  else notApplied "no btrfs, xfs, or crypto_LUKS partition found on /dev/vda".toList

def patchHostname (env : Env) : Script State Unit := do
  check env.writeHostname
  write (deployEtc env ++ "/hostname".toList) (echo (hostname env.recipe))
  say ("==> hostname '".toList ++ hostname env.recipe ++ "' written to ".toList ++
    deployEtc env ++ "/hostname".toList)

def patchOverride (env : Env) : Script State Unit := do
  say ("==> Writing systemd override to break rechunker-group-fix.service ordering cycle").toList
  check env.mkdir
  check env.writeOverride
  write (overrideDir (deployEtc env) ++ "/override.conf".toList) overrideText
  say ("==> systemd override written successfully to ".toList ++ overrideDir (deployEtc env) ++
    "/override.conf".toList)

/-- What is done in the deployment, if one is found. -/
def patch (env : Env) (hostnameFailed : Bool) : Script State Unit :=
  if deployEtc env ≠ [] then do
    when hostnameFailed (patchHostname env)
    patchOverride env
  else
    say ("WARNING: deployment etc/ not found under ".toList ++ env.mnt ++
      "/ostree — post-install patches not applied".toList)

/-- `umount -R "$MNT" || true`, and the container is closed. -/
def unmount (env : Env) : Script State Unit := do
  update fun s => { s with mounted := s.mounted && env.umount ≠ 0 }
  when (luksDev env ≠ []) (luksClose env)

/-- `if [[ $MOUNTED -eq 1 ]]` -/
def repair (env : Env) (hostnameFailed mounted : Bool) : Script State Unit :=
  when mounted do
    patch env hostnameFailed
    unmount env

/-- The last two lines. -/
def finish (env : Env) : Script State Unit := do
  update fun s => { s with directory := s.directory && env.rmdir ≠ 0 }
  say "==> post-install patch complete".toList

def fishermanInstall (env : Env) : Script State Unit := do
  let hostnameFailed ← classify env
  detect env
  let mounted ← mountRoot env
  repair env hostnameFailed mounted
  finish env

end XfceLinux.Install
