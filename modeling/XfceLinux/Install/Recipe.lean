import XfceLinux.Install.Repair
import XfceLinux.Lib.Jsontext
import XfceLinux.Luks.Keys

/-!
# The recipes of the install tests

`luks-install-qemu.sh` and `plain-install-qemu.sh` print a recipe with `printf`, and the wrapper
reads it in two ways: the passphrase as JSON, the hostname with `grep`. Where the values need no
escapes both find what was printed (`recipe_read_back`).
-/

namespace XfceLinux.Install

open Lib Lib.Text Lib.Regex Lib.Jsonload

/-! ## The scripts -/

/-- `printf`, for a format that is cut at its conversions `%s`. -/
def printf : List String → List Str → Str
  | text :: format, arg :: args => text.toList ++ (arg ++ printf format args)
  | format, _ => format.flatMap String.toList

/-- The files of `TARGET`. -/
structure Target where
  payload_ref : Str
  composefs : Option Str
  bootloader : Option Str

/-- `cat … | tr -d '[:space:]'` -/
def readWord (file : Str) : Str := capture (file.filter fun c => !posixSpace c)

namespace Target

variable (t : Target)

/-- `PAYLOAD_IMAGE` -/
def payloadImage : Str := readWord t.payload_ref

/-- `COMPOSEFS_BACKEND` -/
def composefsBackend : Str := (t.composefs.map readWord).getD "true".toList

/-- `BOOTLOADER`, normalised. -/
def bootloaderName : Str :=
  let bootloader := (t.bootloader.map readWord).getD "systemd".toList
  if bootloader = "grub".toList then "grub2".toList else bootloader

/-- `lib_resolve_install_image`, where the image is in the local store or is not. -/
def installImage (stored : Bool) : Str :=
  (if stored then "containers-storage:".toList else "docker://".toList) ++ t.payloadImage

end Target

def DISK : Str := "/dev/vda".toList

def FILESYSTEM : Str := "btrfs".toList

/-- The recipe of `luks-install-qemu.sh`. -/
def luksRecipe (t : Target) (stored : Bool) (passphrase : Str) : Str :=
  if t.composefsBackend = "true".toList then
    printf ["\x7b\n  \"disk\": \"", "\",\n  \"filesystem\": \"", "\",\n  \"image\": \"",
        "\",\n  \"composeFsBackend\": true,\n  \"bootloader\": \"",
        "\",\n  \"hostname\": \"xfce-linux-luks-test\",\n  \"encryption\": \x7b" ++
          "\"type\": \"luks-passphrase\", \"passphrase\": \"",
        "\"\x7d,\n  \"flatpaks\": []\n\x7d\n"]
      [DISK, FILESYSTEM, t.installImage stored, t.bootloaderName, passphrase]
  else
    printf ["\x7b\n  \"disk\": \"", "\",\n  \"filesystem\": \"",
        "\",\n  \"image\": \"\",\n  \"targetImgref\": \"",
        "\",\n  \"composeFsBackend\": false,\n  \"bootloader\": \"",
        "\",\n  \"hostname\": \"xfce-linux-luks-test\",\n  \"encryption\": \x7b" ++
          "\"type\": \"luks-passphrase\", \"passphrase\": \"",
        "\"\x7d,\n  \"flatpaks\": []\n\x7d\n"]
      [DISK, FILESYSTEM, t.payloadImage, t.bootloaderName, passphrase]

/-- The recipe of `plain-install-qemu.sh`. -/
def plainRecipe (t : Target) (stored : Bool) : Str :=
  if t.composefsBackend = "true".toList then
    printf ["\x7b\n  \"disk\": \"", "\",\n  \"filesystem\": \"", "\",\n  \"image\": \"",
        "\",\n  \"composeFsBackend\": true,\n  \"bootloader\": \"",
        "\",\n  \"hostname\": \"xfce-linux-plain-test\",\n" ++
          "  \"encryption\": \x7b\"type\": \"none\"\x7d,\n  \"flatpaks\": []\n\x7d\n"]
      [DISK, FILESYSTEM, t.installImage stored, t.bootloaderName]
  else
    printf ["\x7b\n  \"disk\": \"", "\",\n  \"filesystem\": \"",
        "\",\n  \"image\": \"\",\n  \"targetImgref\": \"",
        "\",\n  \"composeFsBackend\": false,\n  \"bootloader\": \"",
        "\",\n  \"hostname\": \"xfce-linux-plain-test\",\n" ++
          "  \"encryption\": \x7b\"type\": \"none\"\x7d,\n  \"flatpaks\": []\n\x7d\n"]
      [DISK, FILESYSTEM, t.payloadImage, t.bootloaderName]

/-! ## Members on lines of their own -/

/-- A member as it is printed. -/
structure Member where
  key : Str
  text : Str

/-- The line of a member, up to the separator. -/
def Member.line (m : Member) (separator : Str) : Str :=
  ' ' :: ' ' :: (literal m.key ++ ':' :: ' ' :: (m.text ++ separator))

def memberLines : List Member → List Str
  | [] => []
  | [m] => [m.line []]
  | m :: ms => m.line [','] :: memberLines ms

/-- An object with each member on a line. -/
def recipeText (ms : List Member) : Str :=
  Lines.unlines '\n' (['\x7b'] :: memberLines ms ++ [['\x7d']])

def Member.str (key : String) (value : Str) : Member := ⟨key.toList, literal value⟩

def Member.bool (key : String) (value : Bool) : Member :=
  ⟨key.toList, (if value then "true" else "false").toList⟩

def luksEncryption (passphrase : Str) : Str :=
  "\x7b\"type\": \"luks-passphrase\", \"passphrase\": ".toList ++ (literal passphrase ++ ['\x7d'])

def noEncryption : Str := "\x7b\"type\": \"none\"\x7d".toList

/-- The members in front of the hostname. -/
def recipeFront (t : Target) (stored : Bool) : List Member :=
  [.str "disk" DISK, .str "filesystem" FILESYSTEM] ++
    (if t.composefsBackend = "true".toList then
      [.str "image" (t.installImage stored), .bool "composeFsBackend" true]
    else [.str "image" [], .str "targetImgref" t.payloadImage, .bool "composeFsBackend" false]) ++
    [.str "bootloader" t.bootloaderName]

/-- The members behind the hostname. -/
def recipeBack (encryption : Str) : List Member :=
  [⟨"encryption".toList, encryption⟩, ⟨"flatpaks".toList, "[]".toList⟩]

/-- The members of a recipe. -/
def recipeMembers (t : Target) (stored : Bool) (hostname : String) (encryption : Str) :
    List Member :=
  recipeFront t stored ++ .str "hostname" hostname.toList :: recipeBack encryption

theorem luksEncryption_eq (passphrase : Str) : luksEncryption passphrase =
    "\x7b\"type\": \"luks-passphrase\", \"passphrase\": ".toList ++
      (literal passphrase ++ ['\x7d']) := rfl

theorem noEncryption_eq : noEncryption = "\x7b\"type\": \"none\"\x7d".toList := rfl

theorem luksRecipe_eq (t : Target) (stored : Bool) (passphrase : Str) :
    luksRecipe t stored passphrase =
      recipeText (recipeMembers t stored "xfce-linux-luks-test" (luksEncryption passphrase)) := by
  rw [luksRecipe, recipeMembers, recipeFront, recipeBack]
  by_cases hcomposefs : t.composefsBackend = "true".toList
  · rw [if_pos hcomposefs, if_pos hcomposefs]
    simp [printf, recipeText, memberLines, Lines.unlines, Member.line, Member.str, Member.bool,
      literal, luksEncryption_eq]
  · rw [if_neg hcomposefs, if_neg hcomposefs]
    simp [printf, recipeText, memberLines, Lines.unlines, Member.line, Member.str, Member.bool,
      literal, luksEncryption_eq]

theorem plainRecipe_eq (t : Target) (stored : Bool) :
    plainRecipe t stored =
      recipeText (recipeMembers t stored "xfce-linux-plain-test" noEncryption) := by
  rw [plainRecipe, recipeMembers, recipeFront, recipeBack]
  by_cases hcomposefs : t.composefsBackend = "true".toList
  · rw [if_pos hcomposefs, if_pos hcomposefs]
    simp [printf, recipeText, memberLines, Lines.unlines, Member.line, Member.str, Member.bool,
      literal, noEncryption_eq]
  · rw [if_neg hcomposefs, if_neg hcomposefs]
    simp [printf, recipeText, memberLines, Lines.unlines, Member.line, Member.str, Member.bool,
      literal, noEncryption_eq]

/-! ## Read as JSON -/

/-- The line of `m` is read as a member of an object. -/
structure ReadMember (m : Member) (member : Str × Value) : Prop where
  key : m.key = member.1
  plain : Plain member.1
  reads : Reads m.text member.2

theorem readMember_str {key : String} {value : Str} (hkey : Plain key.toList)
    (hvalue : Plain value) : ReadMember (.str key value) (key.toList, .str value) :=
  ⟨rfl, hkey, reads_str hvalue⟩

theorem readMember_bool {key : String} (hkey : Plain key.toList) (value : Bool) :
    ReadMember (.bool key value) (key.toList, .bool value) :=
  ⟨rfl, hkey, reads_bool value⟩

/-- The lines of the members are read up to the bracket behind them. -/
theorem readsMembers_lines {ms : List Member} {members : List (Str × Value)}
    (h : List.Forall₂ ReadMember ms members) (hne : ms ≠ []) : ∃ w, ReadsMembers w members ∧
      Lines.unlines '\n' (memberLines ms ++ [['\x7d']]) = ' ' :: ' ' :: (w ++ ['\n']) := by
  have hspace : Blank [' '] := by decide
  induction h with
  | nil => exact absurd rfl hne
  | @cons m member ms members hm hms ih =>
    obtain ⟨key, value⟩ := member
    obtain ⟨rfl, hplain, hreads⟩ := hm
    cases hms with
    | nil =>
      refine ⟨_, readsMembers_single hplain hspace hreads (by decide : Blank ['\n']), ?_⟩
      simp [memberLines, Lines.unlines, Member.line]
    | cons hm' hms =>
      obtain ⟨w, hw, hlines⟩ := ih (List.cons_ne_nil _ _)
      refine ⟨_, readsMembers_cons hplain hspace hreads (by decide : Blank "\n  ".toList) hw, ?_⟩
      rw [memberLines, List.cons_append, Lines.unlines, List.flatMap_cons, ← Lines.unlines, hlines]
      · simp [Member.line]
      · simp

theorem loads_recipeText {ms : List Member} {members : List (Str × Value)}
    (h : List.Forall₂ ReadMember ms members) (hne : ms ≠ []) :
    Jsonload.loads (recipeText ms) = some (.obj members) := by
  obtain ⟨w, hw, hlines⟩ := readsMembers_lines h hne
  have hobj := reads_obj (by decide : Blank "\n  ".toList) hw
  have htext : recipeText ms = '\x7b' :: ("\n  ".toList ++ w) ++ ['\n'] := by
    rw [recipeText, List.cons_append, Lines.unlines, List.flatMap_cons, ← Lines.unlines, hlines]
    simp
  rw [htext]
  exact loads_of_reads hobj (by decide)

/-! ## Searched with `grep` -/

/-- `t` does not go on from the key `"hostname"` to a value, if it follows `s`. -/
def Apart (s t : Str) : Prop := s = "hostname".toList → ∃ c ∈ t, posixSpace c = false ∧ c ≠ ':'

theorem key_eq : key = '"' :: ("hostname".toList ++ ['"']) := rfl

theorem texts_of_notMem {l : Str} (hl : '"' ∉ l) : texts hostnameRe l = [] := by
  apply texts_hostnameRe_eq_nil
  rintro ⟨p, q, rfl⟩
  exact hl (by simp [key_eq])

/-- A line in which no part between quotation marks is the key of a value. -/
theorem texts_of_apart {segments : List Str} {tail : Str} (hsegments : ∀ s ∈ segments, '"' ∉ s)
    (htail : '"' ∉ tail) (hchain : segments.IsChain Apart) :
    texts hostnameRe (Lines.unlines '"' segments ++ tail) = [] := by
  apply takes_hostnameRe.texts_eq_nil
  rintro u w rest hsplit ⟨a, b, h, ha, hb, hh, rfl⟩
  have hquote {s : Str} (hs : ∀ c ∈ s, posixSpace c = true) : '"' ∉ s :=
    notMem_of_posixSpace (by decide) hs
  have hbetween : '"' ∉ a ++ ':' :: b := by
    rw [List.mem_append, List.mem_cons, not_or, not_or]
    exact ⟨hquote ha, by decide, hquote hb⟩
  -- the parts between quotation marks, from the front
  have hparts : segments ++ [tail] = (Lines.lines '"' u ++ [Lines.rest '"' u]) ++
      ["hostname".toList, a ++ ':' :: b] ++ (h :: rest.splitOn '"') := by
    have hkey : '"' ∉ "hostname".toList := by decide
    have htext : u ++ entry a b h ++ rest = u ++ '"' :: ("hostname".toList ++ '"' ::
        ((a ++ ':' :: b) ++ '"' :: (h ++ '"' :: rest))) := by
      rw [entry, key_eq]
      simp only [List.append_assoc, List.cons_append, List.nil_append]
    have hleft := Lines.splitOn_unlines_append hsegments tail
    rw [List.splitOn_eq_singleton htail, hsplit, htext, Lines.splitOn_append,
      List.splitOn_append_cons_self_of_not_mem (Lines.notMem_rest u),
      List.splitOn_append_cons_self_of_not_mem hkey,
      List.splitOn_append_cons_self_of_not_mem hbetween,
      List.splitOn_append_cons_self_of_not_mem hh] at hleft
    rw [← hleft]
    simp only [List.append_assoc, List.cons_append, List.nil_append]
  have hinfix : ["hostname".toList, a ++ ':' :: b] <:+: segments := by
    rcases List.eq_nil_or_concat' (h :: rest.splitOn '"') with hnil | ⟨init, last, hinit⟩
    · exact absurd hnil (List.cons_ne_nil _ _)
    · rw [hinit, ← List.append_assoc] at hparts
      exact ⟨_, init, (List.append_inj_left' hparts rfl).symm⟩
  have hadjacent := hchain.infix hinfix
  obtain ⟨c, hc, hspace, hcolon⟩ := (List.isChain_cons_cons.mp hadjacent).1 rfl
  rcases List.mem_append.mp hc with hc | hc
  · rw [ha c hc] at hspace
    cases hspace
  · rcases List.mem_cons.mp hc with rfl | hc
    · exact hcolon rfl
    · rw [hb c hc] at hspace
      cases hspace

/-- A member of another key, on one line. -/
structure Silent (m : Member) : Prop where
  oneLine : '\n' ∉ m.key ∧ '\n' ∉ m.text
  texts : ∀ separator : Str, '"' ∉ separator → texts hostnameRe (m.line separator) = []

theorem silent_str {key : String} {value : Str} (hkey : Plain key.toList)
    (hne : key.toList ≠ "hostname".toList) (hvalue : Plain value) : Silent (.str key value) where
  oneLine := by
    refine ⟨hkey.newline_notMem, ?_⟩
    simp [Member.str, literal, hvalue.newline_notMem]
  texts separator hseparator := by
    have hline : (Member.str key value).line separator =
        Lines.unlines '"' ["  ".toList, key.toList, ": ".toList, value] ++ separator := by
      simp [Member.line, Member.str, literal, Lines.unlines]
    rw [hline]
    apply texts_of_apart
    · simp [hkey.quote_notMem, hvalue.quote_notMem]
    · exact hseparator
    · simp only [List.isChain_cons_cons, List.isChain_singleton, and_true]
      exact ⟨fun h => absurd h (by decide), fun h => absurd h hne, fun h => absurd h (by decide)⟩

/-- A member whose value has no quotation marks. -/
theorem silent_bare {key : String} {text : Str} (hkey : Plain key.toList) (htext : Plain text) :
    Silent ⟨key.toList, text⟩ where
  oneLine := ⟨hkey.newline_notMem, htext.newline_notMem⟩
  texts separator hseparator := by
    have hline : (Member.mk key.toList text).line separator =
        Lines.unlines '"' ["  ".toList, key.toList] ++ (": ".toList ++ text ++ separator) := by
      simp [Member.line, literal, Lines.unlines]
    rw [hline]
    apply texts_of_apart
    · simp [hkey.quote_notMem]
    · simp [htext.quote_notMem, hseparator]
    · simp only [List.isChain_cons_cons, List.isChain_singleton, and_true]
      exact fun h => absurd h (by decide)

theorem silent_luks {passphrase : Str} (h : Plain passphrase) :
    Silent ⟨"encryption".toList, luksEncryption passphrase⟩ where
  oneLine := by
    rw [luksEncryption_eq]
    simp [literal, h.newline_notMem]
  texts separator hseparator := by
    have hline : (Member.mk "encryption".toList (luksEncryption passphrase)).line separator =
        Lines.unlines '"' ["  ".toList, "encryption".toList, ": \x7b".toList, "type".toList,
          ": ".toList, "luks-passphrase".toList, ", ".toList, "passphrase".toList, ": ".toList,
          passphrase] ++ ('\x7d' :: separator) := by
      rw [Member.line, luksEncryption_eq]
      simp [literal, Lines.unlines]
    rw [hline]
    apply texts_of_apart
    · simp [h.quote_notMem]
    · simp [hseparator]
    · simp only [List.isChain_cons_cons, List.isChain_singleton, and_true]
      exact ⟨fun h => absurd h (by decide), fun h => absurd h (by decide),
        fun h => absurd h (by decide), fun h => absurd h (by decide),
        fun h => absurd h (by decide), fun h => absurd h (by decide),
        fun h => absurd h (by decide), fun h => absurd h (by decide),
        fun h => absurd h (by decide)⟩

theorem silent_none : Silent ⟨"encryption".toList, noEncryption⟩ where
  oneLine := by decide
  texts separator hseparator := by
    have hline : (Member.mk "encryption".toList noEncryption).line separator =
        Lines.unlines '"' ["  ".toList, "encryption".toList, ": \x7b".toList, "type".toList,
          ": ".toList, "none".toList] ++ ('\x7d' :: separator) := by
      rw [Member.line, noEncryption_eq]
      simp [literal, Lines.unlines]
    rw [hline]
    apply texts_of_apart
    · simp
    · simp [hseparator]
    · simp only [List.isChain_cons_cons, List.isChain_singleton, and_true]
      exact ⟨fun h => absurd h (by decide), fun h => absurd h (by decide),
        fun h => absurd h (by decide), fun h => absurd h (by decide),
        fun h => absurd h (by decide)⟩

/-- The line that states the hostname. -/
theorem texts_hostnameLine {h separator : Str} (hh : '"' ∉ h) (hseparator : '"' ∉ separator) :
    texts hostnameRe ((Member.str "hostname" h).line separator) = [entry [] [' '] h] := by
  have hline : (Member.str "hostname" h).line separator =
      "  ".toList ++ (entry [] [' '] h ++ separator) := by
    rw [entry, key_eq]
    simp [Member.line, Member.str, literal]
  have hentry : Entry (entry [] [' '] h) :=
    ⟨[], [' '], h, by simp, List.forall_mem_singleton.mpr rfl, hh, rfl⟩
  rw [hline, takes_hostnameRe.texts_skip, takes_hostnameRe.texts_append hentry,
    texts_of_notMem hseparator]
  rintro u₁ u₂ w rest hu hne hsplit ⟨a, b, v, -, -, -, rfl⟩
  obtain ⟨c, u₂, rfl⟩ := List.exists_cons_of_ne_nil hne
  have hc : c ∈ "  ".toList := by
    rw [hu]
    exact List.mem_append_right _ List.mem_cons_self
  have hquote : c = '"' := (List.cons.inj hsplit).1
  rw [hquote] at hc
  exact absurd hc (by decide)

theorem mem_memberLines {ms : List Member} {l : Str} (h : l ∈ memberLines ms) :
    ∃ m ∈ ms, ∃ separator, (separator = [] ∨ separator = [',']) ∧ l = m.line separator := by
  induction ms using memberLines.induct with
  | case1 => cases h
  | case2 m => exact ⟨m, List.mem_cons_self, [], .inl rfl, List.mem_singleton.mp h⟩
  | case3 m ms hms ih =>
    rw [memberLines] at h
    · rcases List.mem_cons.mp h with rfl | h
      · exact ⟨m, List.mem_cons_self, [','], .inr rfl, rfl⟩
      · obtain ⟨m', hm', hline⟩ := ih h
        exact ⟨m', List.mem_cons_of_mem _ hm', hline⟩
    · exact hms

/-- What is found on the lines of the members, if the separator adds nothing. -/
theorem flatMap_memberLines {f : Str → List Str} {ms : List Member}
    (h : ∀ m ∈ ms, f (m.line [',']) = f (m.line [])) :
    (memberLines ms).flatMap f = ms.flatMap fun m => f (m.line []) := by
  induction ms using memberLines.induct with
  | case1 => rfl
  | case2 m => rfl
  | case3 m ms hms ih =>
    rw [memberLines, List.flatMap_cons, List.flatMap_cons, h m List.mem_cons_self,
      ih fun m' hm' => h m' (List.mem_cons_of_mem _ hm')]
    exact hms

theorem notMem_line {c : Char} {m : Member} {separator : Str} (hkey : c ∉ m.key)
    (htext : c ∉ m.text) (hseparator : c ∉ separator) (hc : c ∉ [' ', '"', ':']) :
    c ∉ m.line separator := by
  simp only [List.mem_cons, List.not_mem_nil, or_false, not_or] at hc
  simp [Member.line, literal, hkey, htext, hseparator, hc]

/-- Only the line of the hostname is found. -/
theorem grep_recipeText {front back : List Member} {h : Str} (hfront : ∀ m ∈ front, Silent m)
    (hback : ∀ m ∈ back, Silent m) (hh : Plain h) :
    grep hostnameRe ((recipeText (front ++ .str "hostname" h :: back)).splitOn '\n') =
      [entry [] [' '] h] := by
  have honeLine : ∀ m ∈ front ++ .str "hostname" h :: back, '\n' ∉ m.key ∧ '\n' ∉ m.text := by
    intro m hm
    rcases List.mem_append.mp hm with hm | hm
    · exact (hfront m hm).oneLine
    rcases List.mem_cons.mp hm with rfl | hm
    · simp [Member.str, literal, hh.newline_notMem]
    · exact (hback m hm).oneLine
  have hlines : ∀ l ∈ ['\x7b'] :: memberLines (front ++ .str "hostname" h :: back) ++ [['\x7d']],
      '\n' ∉ l := by
    intro l hl
    rcases List.mem_append.mp hl with hl | hl
    · rcases List.mem_cons.mp hl with rfl | hl
      · decide
      · obtain ⟨m, hm, separator, hseparator, rfl⟩ := mem_memberLines hl
        refine notMem_line (honeLine m hm).1 (honeLine m hm).2 ?_ (by decide)
        rcases hseparator with rfl | rfl <;> decide
    · rw [List.mem_singleton.mp hl]
      decide
  have hseparators : '"' ∉ [','] ∧ '"' ∉ ([] : Str) := by decide
  have hmembers : (memberLines (front ++ .str "hostname" h :: back)).flatMap (texts hostnameRe) =
      [entry [] [' '] h] := by
    have hsilent : ∀ ms : List Member, (∀ m ∈ ms, Silent m) →
        (ms.flatMap fun m => texts hostnameRe (m.line [])) = [] :=
      fun ms hms => List.flatMap_eq_nil_iff.mpr fun m hm => (hms m hm).texts [] hseparators.2
    rw [flatMap_memberLines, List.flatMap_append, List.flatMap_cons, hsilent front hfront,
      hsilent back hback, texts_hostnameLine hh.quote_notMem hseparators.2]
    · rfl
    intro m hm
    rcases List.mem_append.mp hm with hm | hm
    · rw [(hfront m hm).texts _ hseparators.1, (hfront m hm).texts _ hseparators.2]
    rcases List.mem_cons.mp hm with rfl | hm
    · rw [texts_hostnameLine hh.quote_notMem hseparators.1,
        texts_hostnameLine hh.quote_notMem hseparators.2]
    · rw [(hback m hm).texts _ hseparators.1, (hback m hm).texts _ hseparators.2]
  have hsplit := Lines.splitOn_unlines_append hlines []
  rw [List.append_nil, List.splitOn_nil] at hsplit
  rw [recipeText, hsplit, grep, List.flatMap_append, List.flatMap_append, List.flatMap_cons,
    hmembers, List.flatMap_singleton, List.flatMap_singleton, texts_of_notMem (by decide),
    texts_of_notMem (by decide), texts_of_notMem (by decide)]
  rfl

/-- What the script reads where the first `grep` prints an entry. -/
theorem hostname_of_grep {recipe a b h : Str}
    (hgrep : grep hostnameRe (recipe.splitOn '\n') = [entry a b h]) (hh : Plain h) :
    hostname recipe = h := by
  have hvalues : grep quotedRe (grep hostnameRe (recipe.splitOn '\n')) = [quoted h] := by
    rw [hgrep, grep, List.flatMap_singleton, texts_entry hh.quote_notMem]
  have hquote : ∀ c ∈ h, (c != '"') = true := by simpa using fun c hc => (hh c hc).1
  have htr : (Lines.unlines '\n' [quoted h]).filter (· != '"') = h ++ ['\n'] := by
    simp [Lines.unlines, quoted, List.filter_eq_self.mpr hquote]
  simp only [hostname, hvalues, List.isEmpty_cons, Bool.false_eq_true, if_false, htr]
  exact capture_line fun c hc => hh.ne_control hc

/-! ## What the wrapper makes of the recipes -/

/-- The members of the object in front of the hostname. -/
def objectFront (t : Target) (stored : Bool) : List (Str × Value) :=
  [("disk".toList, .str DISK), ("filesystem".toList, .str FILESYSTEM)] ++
    (if t.composefsBackend = "true".toList then
      [("image".toList, .str (t.installImage stored)), ("composeFsBackend".toList, .bool true)]
    else [("image".toList, .str []), ("targetImgref".toList, .str t.payloadImage),
      ("composeFsBackend".toList, .bool false)]) ++
    [("bootloader".toList, .str t.bootloaderName)]

/-- The members of the object that a recipe is. -/
def recipeObject (t : Target) (stored : Bool) (hostname : String)
    (encryption : List (Str × Value)) : List (Str × Value) :=
  objectFront t stored ++ ("hostname".toList, .str hostname.toList) ::
    [("encryption".toList, .obj encryption), ("flatpaks".toList, .arr [])]

/-- The wrapper finds these values in its recipe. -/
structure ReadsBack (env : Env) (members : List (Str × Value)) (secret name : Str) : Prop where
  loads : Jsonload.loads env.recipe = some (.obj members)
  passphrase : passphrase env = secret
  hostname : hostname env.recipe = name
  /-- After a failure, success means a warning or this hostname in the deployment. -/
  written : env.fisherman ≠ 0 → (Shell.Script.run (fishermanInstall env) {}).1 = 0 →
    Warned (Shell.Script.run (fishermanInstall env) {}).2 ∨
      (deployEtc env ++ "/hostname".toList, name ++ ['\n']) ∈
        (Shell.Script.run (fishermanInstall env) {}).2.files

theorem plain_append {s t : Str} (hs : Plain s) (ht : Plain t) : Plain (s ++ t) := by
  intro c hc
  exact (List.mem_append.mp hc).elim (hs c) (ht c)

theorem Target.plain_installImage {t : Target} (h : Plain t.payloadImage) (stored : Bool) :
    Plain (t.installImage stored) := by
  refine plain_append ?_ h
  cases stored <;> decide

/-- A member that is read as it should be and is not taken for the hostname. -/
structure Fits (m : Member) (member : Str × Value) : Prop where
  silent : Silent m
  read : ReadMember m member

theorem fits_str {key : String} {value : Str} (hkey : Plain key.toList)
    (hne : key.toList ≠ "hostname".toList) (hvalue : Plain value) :
    Fits (.str key value) (key.toList, .str value) :=
  ⟨silent_str hkey hne hvalue, readMember_str hkey hvalue⟩

theorem silent_of_fits {ms : List Member} {members : List (Str × Value)}
    (h : List.Forall₂ Fits ms members) : ∀ m ∈ ms, Silent m := by
  induction h with
  | nil => simp
  | cons hm _ ih => exact List.forall_mem_cons.mpr ⟨hm.silent, ih⟩

/-- The wrapper finds the hostname and the object. -/
theorem readsBack_of_fits {env : Env} {front back : List Member}
    {objFront objBack : List (Str × Value)} {hostname : String} {secret : Str}
    (hrecipe : env.recipe = recipeText (front ++ .str "hostname" hostname.toList :: back))
    (hfront : List.Forall₂ Fits front objFront) (hback : List.Forall₂ Fits back objBack)
    (hhostname : Plain hostname.toList) (hecho : echoOption hostname.toList = false)
    (hinner : getPassphrase (.obj (objFront ++ ("hostname".toList, .str hostname.toList) ::
      objBack)) = some (.str secret)) (hsecret : Plain secret) :
    ReadsBack env (objFront ++ ("hostname".toList, .str hostname.toList) :: objBack) secret
      hostname.toList := by
  have hread : List.Forall₂ ReadMember (front ++ .str "hostname" hostname.toList :: back)
      (objFront ++ ("hostname".toList, .str hostname.toList) :: objBack) :=
    List.rel_append (hfront.imp fun _ _ h => h.read)
      (.cons (readMember_str (by decide) hhostname) (hback.imp fun _ _ h => h.read))
  have hloads := loads_recipeText hread (by simp)
  have hname := hostname_of_grep
    (grep_recipeText (silent_of_fits hfront) (silent_of_fits hback) hhostname) hhostname
  rw [← hrecipe] at hloads hname
  refine ⟨hloads, ?_, hname, fun hfisherman hrun => ?_⟩
  · rw [passphrase, hloads, Option.bind_eq_bind, Option.bind_some, hinner]
    exact capture_line fun c hc => hsecret.ne_control hc
  · refine (fishermanInstall_warns hrun).imp_right fun hfiles => ?_
    rw [hfiles, written, if_pos (decide_eq_true hfisherman), hname, echo,
      if_neg (by simp [hecho])]
    exact List.mem_append_left _ List.mem_cons_self

theorem fits_front {t : Target} (hpayload : Plain t.payloadImage)
    (hbootloader : Plain t.bootloaderName) (stored : Bool) :
    List.Forall₂ Fits (recipeFront t stored) (objectFront t stored) := by
  have hdisk : Fits (.str "disk" DISK) ("disk".toList, .str DISK) :=
    fits_str (by decide) (by decide) (by decide)
  have hfilesystem : Fits (.str "filesystem" FILESYSTEM) ("filesystem".toList, .str FILESYSTEM) :=
    fits_str (by decide) (by decide) (by decide)
  have himage {value : Str} (h : Plain value) :
      Fits (.str "image" value) ("image".toList, .str value) :=
    fits_str (by decide) (by decide) h
  have htarget : Fits (.str "targetImgref" t.payloadImage)
      ("targetImgref".toList, .str t.payloadImage) :=
    fits_str (by decide) (by decide) hpayload
  have hbool (value : Bool) : Fits (.bool "composeFsBackend" value)
      ("composeFsBackend".toList, .bool value) :=
    ⟨silent_bare (by decide) (by cases value <;> decide), readMember_bool (by decide) value⟩
  have hboot : Fits (.str "bootloader" t.bootloaderName)
      ("bootloader".toList, .str t.bootloaderName) :=
    fits_str (by decide) (by decide) hbootloader
  rw [recipeFront, objectFront]
  refine List.rel_append (List.rel_append (.cons hdisk (.cons hfilesystem .nil)) ?_)
    (.cons hboot .nil)
  by_cases hcomposefs : t.composefsBackend = "true".toList
  · rw [if_pos hcomposefs, if_pos hcomposefs]
    exact .cons (himage (Target.plain_installImage hpayload stored)) (.cons (hbool true) .nil)
  · rw [if_neg hcomposefs, if_neg hcomposefs]
    exact .cons (himage (by decide)) (.cons htarget (.cons (hbool false) .nil))

theorem fits_back {encryption : Str} {inner : List (Str × Value)}
    (hsilent : Silent ⟨"encryption".toList, encryption⟩)
    (hreads : Reads encryption (.obj inner)) :
    List.Forall₂ Fits (recipeBack encryption)
      [("encryption".toList, .obj inner), ("flatpaks".toList, .arr [])] := by
  have hencryption : Fits ⟨"encryption".toList, encryption⟩ ("encryption".toList, .obj inner) :=
    ⟨hsilent, rfl, (by decide : Plain "encryption".toList), hreads⟩
  have hflatpaks : Fits ⟨"flatpaks".toList, "[]".toList⟩ ("flatpaks".toList, .arr []) :=
    ⟨silent_bare (by decide) (by decide), rfl, (by decide : Plain "flatpaks".toList),
      reads_emptyArr⟩
  exact .cons hencryption (.cons hflatpaks .nil)

theorem reads_luks {passphrase : Str} (h : Plain passphrase) :
    Reads (luksEncryption passphrase) (.obj [("type".toList, .str "luks-passphrase".toList),
      ("passphrase".toList, .str passphrase)]) := by
  have hspace : Blank [' '] := by decide
  have hlast := readsMembers_single (by decide : Plain "passphrase".toList) hspace (reads_str h)
    (by decide : Blank [])
  have hfirst := readsMembers_cons (by decide : Plain "type".toList) hspace
    (reads_str (by decide : Plain "luks-passphrase".toList)) hspace hlast
  have hobj := reads_obj (by decide : Blank []) hfirst
  rw [luksEncryption_eq]
  simpa [literal] using hobj

theorem reads_none : Reads noEncryption (.obj [("type".toList, .str "none".toList)]) := by
  have hfirst := readsMembers_single (by decide : Plain "type".toList) (by decide : Blank [' '])
    (reads_str (by decide : Plain "none".toList)) (by decide : Blank [])
  have hobj := reads_obj (by decide : Blank []) hfirst
  rw [noEncryption_eq]
  simpa [literal] using hobj

theorem getPassphrase_recipeObject (t : Target) (stored : Bool) (hostname : String)
    (encryption : List (Str × Value)) :
    getPassphrase (.obj (recipeObject t stored hostname encryption)) =
      some (((Value.obj encryption).get? "passphrase".toList).getD (.str [])) := by
  have hget : (Value.obj (recipeObject t stored hostname encryption)).get? "encryption".toList =
      some (.obj encryption) := by
    rw [recipeObject, Value.get?, List.reverse_append]
    rfl
  rw [getPassphrase, hget]

theorem readsBack_luks {t : Target} (hpayload : Plain t.payloadImage)
    (hbootloader : Plain t.bootloaderName) {stored : Bool} {secret : Str} (hsecret : Plain secret)
    {env : Env} (hrecipe : env.recipe = luksRecipe t stored secret) : ReadsBack env
      (recipeObject t stored "xfce-linux-luks-test" [("type".toList, .str "luks-passphrase".toList),
        ("passphrase".toList, .str secret)]) secret "xfce-linux-luks-test".toList := by
  rw [luksRecipe_eq] at hrecipe
  exact readsBack_of_fits hrecipe (fits_front hpayload hbootloader stored)
    (fits_back (silent_luks hsecret) (reads_luks hsecret)) (by decide) (by decide)
    (getPassphrase_recipeObject t stored _ _) hsecret

/-- **The recipes are read back.** Where the files of the target and the passphrase need no
escapes, the wrapper gets the members that were printed, the passphrase and the hostname, and
after a failure of `fisherman` it does not end with success and without a warning unless it has
written that hostname. -/
theorem recipe_read_back {t : Target} (hpayload : Plain t.payloadImage)
    (hbootloader : Plain t.bootloaderName) (stored : Bool) {secret : Str} (hsecret : Plain secret)
    (env : Env) :
    (env.recipe = luksRecipe t stored secret → ReadsBack env
      (recipeObject t stored "xfce-linux-luks-test" [("type".toList, .str "luks-passphrase".toList),
        ("passphrase".toList, .str secret)]) secret "xfce-linux-luks-test".toList) ∧
    (env.recipe = plainRecipe t stored → ReadsBack env
      (recipeObject t stored "xfce-linux-plain-test" [("type".toList, .str "none".toList)]) []
      "xfce-linux-plain-test".toList) := by
  refine ⟨readsBack_luks hpayload hbootloader hsecret, fun hrecipe => ?_⟩
  rw [plainRecipe_eq] at hrecipe
  exact readsBack_of_fits hrecipe (fits_front hpayload hbootloader stored)
    (fits_back silent_none reads_none) (by decide) (by decide)
    (getPassphrase_recipeObject t stored _ _) (by decide)

/-- A target whose image goes through ostree and boots with GRUB. -/
def ostreeTarget : Target where
  payload_ref := "ghcr.io/tuna-os/xfce-linux:latest\n".toList
  composefs := some "false\n".toList
  bootloader := some "grub\n".toList

theorem ostreeTarget_plain :
    Plain ostreeTarget.payloadImage ∧ Plain ostreeTarget.bootloaderName := by
  decide +kernel

theorem recipe_read_back_ostree :
    ReadsBack { mountFails with recipe := luksRecipe ostreeTarget true "pass word".toList }
      (recipeObject ostreeTarget true "xfce-linux-luks-test"
        [("type".toList, .str "luks-passphrase".toList),
          ("passphrase".toList, .str "pass word".toList)])
      "pass word".toList "xfce-linux-luks-test".toList ∧
    ReadsBack { mountFails with recipe := plainRecipe ostreeTarget true }
      (recipeObject ostreeTarget true "xfce-linux-plain-test" [("type".toList, .str "none".toList)])
      [] "xfce-linux-plain-test".toList :=
  have hsecret : Plain "pass word".toList := by decide
  ⟨(recipe_read_back ostreeTarget_plain.1 ostreeTarget_plain.2 true hsecret _).1 rfl,
    (recipe_read_back ostreeTarget_plain.1 ostreeTarget_plain.2 true hsecret _).2 rfl⟩

/-! ## The passphrase that is typed -/

section Typed

open Luks

theorem filter_typable_eq {passphrase : Str} :
    passphrase.filter (· ∈ typable) = passphrase ↔ ∀ c ∈ passphrase, c ∈ typable := by
  rw [List.filter_eq_self]
  simp only [decide_eq_true_eq]

theorem map_filter_typable_eq {passphrase : Str} :
    (passphrase.filter (· ∈ typable)).map (fun c => if c = '_' then '-' else c) = passphrase ↔
      ∀ c ∈ passphrase, c ∈ typable ∧ c ≠ '_' := by
  constructor
  · intro h
    -- nothing is skipped, or the text would be shorter
    have hlength := congrArg List.length h
    rw [List.length_map, List.length_filter_eq_length_iff] at hlength
    have hall : passphrase.filter (· ∈ typable) = passphrase := List.filter_eq_self.mpr hlength
    rw [hall] at h
    intro c hc
    refine ⟨by simpa using hlength c hc, ?_⟩
    rintro rfl
    rw [← h] at hc
    obtain ⟨x, -, hx⟩ := List.mem_map.mp hc
    split at hx
    · exact absurd hx (by decide)
    · contradiction
  · intro h
    rw [filter_typable_eq.mpr fun c hc => (h c hc).1]
    refine (List.map_congr_left (g := id) fun c hc => ?_).trans (List.map_id _)
    exact if_neg (h c hc).2

/-- **The passphrase that is typed** at the prompt is the one that the wrapper takes from the
recipe, exactly if the table has a key for each character and, for libvirt, there is no
underscore. -/
theorem typed_iff {t : Target} (hpayload : Plain t.payloadImage)
    (hbootloader : Plain t.bootloaderName) (stored : Bool) {secret : Str} (hsecret : Plain secret)
    {env : Env} (hrecipe : env.recipe = luksRecipe t stored secret) :
    ((qemu_send_passphrase secret).filterMap qemuTypes = passphrase env ++ ['\n'] ↔
        ∀ c ∈ secret, c ∈ typable) ∧
      ((virsh_send_passphrase secret).filterMap linuxTypes = passphrase env ++ ['\n'] ↔
        ∀ c ∈ secret, c ∈ typable ∧ c ≠ '_') := by
  have hread := (readsBack_luks hpayload hbootloader hsecret hrecipe).passphrase
  rw [hread, typed_qemu, typed_virsh, List.append_cancel_right_eq, List.append_cancel_right_eq]
  exact ⟨filter_typable_eq, map_filter_typable_eq⟩

theorem typable_liveTest : ∀ c ∈ "live_test".toList, c ∈ typable := by
  have hAll : "live_test".toList.all (typable.contains ·) = true := by decide
  simpa using hAll

theorem typed_iff_ostree :
    (qemu_send_passphrase "live_test".toList).filterMap qemuTypes = passphrase
      { mountFails with recipe := luksRecipe ostreeTarget false "live_test".toList } ++ ['\n'] :=
  (typed_iff ostreeTarget_plain.1 ostreeTarget_plain.2 false (by decide) rfl).1.mpr
    typable_liveTest

end Typed

end XfceLinux.Install
