import XfceLinux.Lib.Normpath
import XfceLinux.Lib.Utf8
import XfceLinux.Dashboard.Updates

/-!
# `GET /api/log`

The handler opens the file of the `path` parameter, when the normalised path begins with
the text of the log directory, or the log of the active job of the `hash` parameter. The
log of a job is what `os.path.join` makes of the message of its START line
(`log_of_active`). `log_endpoint_contained_iff` says of a request that opens a file when the
file lies below the log directory.
-/

namespace XfceLinux.Dashboard

open Lib Lib.Text Lib.Regex Lib.Lines

/-! ## Reading the request -/

/-- The value of a digit in `_hexdig`. -/
def hexDigit (c : Char) : Option Nat :=
  if range '0' '9' c then some (c.toNat - '0'.toNat)
  else if range 'A' 'F' c then some (c.toNat - 'A'.toNat + 10)
  else if range 'a' 'f' c then some (c.toNat - 'a'.toNat + 10)
  else none

/-- `unquote_to_bytes` of an ASCII text -/
def unquoteToBytes : Str → Bytes
  | [] => []
  | '%' :: a :: b :: s =>
    match hexDigit a, hexDigit b with
    | some x, some y => UInt8.ofNat (16 * x + y) :: unquoteToBytes s
    | _, _ => UInt8.ofNat '%'.toNat :: unquoteToBytes (a :: b :: s)
  | c :: s => UInt8.ofNat c.toNat :: unquoteToBytes s

def unquote (s : Str) : Str :=
  let isAscii := fun c : Char => decide (c.toNat < 128)
  if '%' ∈ s then
    (s.splitBy fun a b => isAscii a == isAscii b).flatMap fun part =>
      if part.all isAscii then Utf8.decode (unquoteToBytes part) else part
  else s

/-- `_norm_path`, with the path and the query. -/
def normPath (selfPath : Str) : Str × Str :=
  let orSlash := fun p : Str => if p = [] then ['/'] else p
  let (path, query) := partition '?' selfPath
  let path := orSlash (rstrip (· == '/') path)
  (if "/bst".toList.isPrefixOf path then orSlash (path.drop 4) else path, query)

/-- `params.get(key)` -/
def param (query key : Str) : Option Str :=
  (((query.splitOn '&').filter fun p => '=' ∈ p).map (partition '=')).reverse.lookup key

/-! ## The handler -/

/-- The working directory, as `os.getcwd` reports it. -/
structure Cwd where
  path : Str
  absolute : Path.isAbsolute path

/-- The file system: what exists, and what can be opened and read. -/
structure Fs where
  pathExists : Str → Bool
  readFile : Str → Option Bytes

/-- `log_path` of the `/api/log` branch of `do_GET` -/
def logPath (host : Host) (cwd : Cwd) (s : State) (query : Str) : Option Str :=
  match param query "path".toList with
  | some quoted =>
    let candidate := unquote quoted
    if (bstLogs host).isPrefixOf (Path.abspath cwd.path candidate) then some candidate else none
  | none =>
    match param query "hash".toList with
    | some h => (Dict.get? s.active h).map (·.log)
    | none => none

/-- The file that the `/api/log` branch of `do_GET` opens. -/
def opened (host : Host) (cwd : Cwd) (fs : Fs) (s : State) (selfPath : Str) : Option Str :=
  if (normPath selfPath).1 = "/api/log".toList then
    (logPath host cwd s (normPath selfPath).2).filter fun p =>
      p ≠ [] && fs.pathExists p && (fs.readFile p).isSome
  else none

/-! ## START lines -/

/-- The START event of a call of `parse_line`. -/
def startOf (host : Host) : Call → Option Event
  | .reset => none
  | .line _ raw =>
    if isHeader raw || isSummary raw || raises host raw then none
    else (event? host (cleanLine raw)).filter fun e =>
      e.action = "build".toList && e.isTop && e.status = "START".toList

/-- The last START event for a hash. -/
def lastStart (host : Host) (cs : List Call) (h : Str) : Option Event :=
  cs.reverse.findSome? fun c => (startOf host c).filter fun e => e.hash = h

theorem applyEvent_start {e : Event} (ha : e.action = "build".toList) (ht : e.isTop)
    (hs : e.status = "START".toList) (host : Host) (clock : Clock) (s : State) :
    applyEvent host clock e s =
      (s.update (addRecent e.recent)).update
        (start e.short e.hash (e.hostLog host) clock.first) := by
  simp only [applyEvent, ha, ht, hs, and_self, if_true]

theorem get?_applyEvent {e : Event}
    (he : ¬ (e.action = "build".toList ∧ e.isTop ∧ e.status = "START".toList)) (host : Host)
    (clock : Clock) (s : State) {h : Str} {job : Job}
    (hjob : Dict.get? (applyEvent host clock e s).active h = some job) :
    Dict.get? s.active h = some job := by
  have hpop : ∀ k, Dict.get? (Dict.pop s.active k) h = some job →
      Dict.get? s.active h = some job := by
    intro k hk
    rw [Dict.get?_pop] at hk
    split at hk
    · cases hk
    · exact hk
  unfold applyEvent at hjob
  dsimp only at hjob
  rw [if_neg he] at hjob
  split at hjob
  · exact hpop _ hjob
  split at hjob
  · simp only [State.update, fail] at hjob
    split at hjob
    · exact hjob
    · rename_i entry hentry
      refine hpop e.hash ?_
      simp only [recordFailure] at hjob
      split at hjob
      · exact hjob
      · split at hjob <;> exact hjob
  split at hjob
  · split at hjob
    · exact hjob
    · split at hjob <;> exact hjob
  · exact hjob

theorem parseTotal_active {host : Host} {clean : Str} {s t : State}
    (h : parseTotal host clean s = .ok t) : t.active = s.active := by
  unfold parseTotal at h
  split at h
  · cases h
    rfl
  · split at h <;> cases h
    rfl

theorem parseQueue_active {host : Host} {clean : Str} {s t : State}
    (h : parseQueue host clean s = .ok t) : t.active = s.active := by
  unfold parseQueue at h
  split at h
  · cases h
    rfl
  · split at h
    · split at h <;> cases h
      simp only [State.update, backfillFailures]
      split <;> rfl
    · cases h
      rfl

theorem parseFailureBlock_active (host : Host) (clean : Str) (s : State) :
    (parseFailureBlock host clean s).active = s.active := by
  have helem : ∀ elem t, (State.update t (addFailureElem elem)).active = t.active := by
    intro elem t
    simp only [State.update, addFailureElem]
    split <;> rfl
  have hlog : ∀ path t, (State.update t (setFailLog path)).active = t.active := by
    intro path t
    simp only [State.update, setFailLog]
    split <;> rfl
  unfold parseFailureBlock
  cases failureElem host clean <;> cases failureLog host clean <;> simp only [helem, hlog]

theorem afterLine_rest {raw : Str} (hh : isHeader raw = false) (hs : isSummary raw = false)
    {host : Host} (hr : raises host raw = false) (hne : cleanLine raw ≠ []) (clock : Clock)
    (s : State) :
    ∃ t, t.active = s.active ∧
      afterLine host clock raw s = parseRest host clock (cleanLine raw) t := by
  simp only [raises, hh, hs, Bool.not_false, Bool.true_and, Bool.or_eq_false_iff] at hr
  rcases parseTotal_spec host (cleanLine raw) s with ⟨ht, -⟩ | ⟨-, t, ht, -⟩
  · simp [hr.1] at ht
  rcases parseQueue_spec host (cleanLine raw) t with ⟨hq, -⟩ | ⟨-, u, hu, -⟩
  · simp [hr.2] at hq
  refine ⟨parseFailureBlock host (cleanLine raw) u, ?_, ?_⟩
  · rw [parseFailureBlock_active, parseQueue_active hu, parseTotal_active ht]
  · have hline : parseLine host clock raw s =
        .ok (parseRest host clock (cleanLine raw) (parseFailureBlock host (cleanLine raw) u)) := by
      rw [parseLine_inner hh hs, if_neg hne, ht]
      change parseQueue host (cleanLine raw) t >>= _ = _
      rw [hu]
      rfl
    rw [afterLine, hline]

theorem afterLine_raises {raw : Str} {host : Host} (hr : raises host raw) (clock : Clock)
    (s : State) : (afterLine host clock raw s).active = s.active := by
  have hne : cleanLine raw ≠ [] := fun hnil => by simp [raises_nil hnil] at hr
  simp only [raises, Bool.and_eq_true, Bool.not_eq_true', Bool.or_eq_true] at hr
  obtain ⟨⟨hh, hs⟩, hr⟩ := hr
  rcases parseTotal_spec host (cleanLine raw) s with ⟨-, ht⟩ | ⟨hf, t, ht, -⟩
  · rw [afterLine, parseLine_inner hh hs, if_neg hne, ht]
    rfl
  rcases parseQueue_spec host (cleanLine raw) t with ⟨-, hq⟩ | ⟨hf', -⟩
  · have hline : parseLine host clock raw s = .error t := by
      rw [parseLine_inner hh hs, if_neg hne, ht]
      change parseQueue host (cleanLine raw) t >>= _ = _
      rw [hq]
      rfl
    rw [afterLine, hline]
    exact parseTotal_active ht
  · simp [hf, hf'] at hr

/-- A call that does not start the job `h` leaves it as it was, or drops it. -/
theorem get?_apply {host : Host} {c : Call} {h : Str} {job : Job}
    (hc : ∀ e ∈ startOf host c, e.hash ≠ h) (s : State)
    (hjob : Dict.get? (c.apply host s).active h = some job) :
    Dict.get? s.active h = some job := by
  cases c with
  | reset => cases hjob
  | line clock raw =>
    simp only [Call.apply] at hjob
    cases hh : isHeader raw with
    | true =>
      obtain ⟨ts, hts⟩ := afterLine_header hh host clock s
      rw [hts] at hjob
      cases hjob
    | false =>
    cases hs : isSummary raw with
    | true =>
      rw [afterLine_summary hs] at hjob
      cases hjob
    | false =>
    cases hr : raises host raw with
    | true => rwa [afterLine_raises hr] at hjob
    | false =>
    by_cases hne : cleanLine raw = []
    · rwa [afterLine, parseLine_inner hh hs, if_pos hne] at hjob
    obtain ⟨t, ht, hafter⟩ := afterLine_rest hh hs hr hne clock s
    rw [hafter, parseRest] at hjob
    rw [← ht]
    split at hjob
    · rename_i e he
      by_cases hstart : e.action = "build".toList ∧ e.isTop ∧ e.status = "START".toList
      · have hmem : e ∈ startOf host (.line clock raw) := by
          simp [startOf, hh, hs, hr, he, hstart]
        rw [applyEvent_start hstart.1 hstart.2.1 hstart.2.2] at hjob
        change Dict.get? (Dict.set t.active e.hash _) h = some job at hjob
        rwa [Dict.get?_set, if_neg (hc e hmem)] at hjob
      · exact get?_applyEvent hstart host clock t hjob
    · split at hjob <;> exact hjob

theorem get?_start {host : Host} {c : Call} {e : Event} (hc : startOf host c = some e)
    (s : State) : ∃ job, Dict.get? (c.apply host s).active e.hash = some job ∧
      job.log = e.hostLog host := by
  cases c with
  | reset => cases hc
  | line clock raw =>
    simp only [startOf] at hc
    split at hc
    · cases hc
    rename_i hnot
    simp only [Bool.or_eq_true, not_or, Bool.not_eq_true] at hnot
    obtain ⟨⟨hh, hs⟩, hr⟩ := hnot
    obtain ⟨he, hstart⟩ := Option.filter_eq_some_iff.mp hc
    simp only [Bool.and_eq_true, decide_eq_true_eq] at hstart
    have hne : cleanLine raw ≠ [] := by
      intro hnil
      rw [hnil] at he
      exact absurd he (by simp [event?, show matchStart lineRe [] = none from rfl])
    obtain ⟨t, -, hafter⟩ := afterLine_rest hh hs hr hne clock s
    refine ⟨{ element := e.short, hash := e.hash, start := clock.first, log := e.hostLog host },
      ?_, rfl⟩
    rw [Call.apply, hafter, parseRest, he]
    simp only
    rw [applyEvent_start hstart.1.1 hstart.1.2 hstart.2]
    change Dict.get? (Dict.set t.active e.hash _) e.hash = _
    rw [Dict.get?_set, if_pos rfl]

/-- **Log paths.** The log of an active job is what its START line says. -/
theorem log_of_active {host : Host} {cs : List Call} {h : Str} {job : Job}
    (hjob : Dict.get? (runCalls host cs {}).active h = some job) :
    ∃ e, lastStart host cs h = some e ∧ job.log = e.hostLog host := by
  induction cs using List.reverseRecOn generalizing job with
  | nil => cases hjob
  | append_singleton cs c ih =>
    rw [runCalls_append, runCalls_cons, runCalls_nil] at hjob
    have hlast : lastStart host (cs ++ [c]) h =
        ((startOf host c).filter fun e => e.hash = h).or (lastStart host cs h) := by
      rw [lastStart, List.reverse_append, List.reverse_singleton, List.singleton_append,
        List.findSome?_cons]
      cases (startOf host c).filter fun e => e.hash = h <;> rfl
    rw [hlast]
    cases hc : (startOf host c).filter fun e => e.hash = h with
    | some e =>
      obtain ⟨hstart, hhash⟩ := Option.filter_eq_some_iff.mp hc
      obtain ⟨job', hjob', hlog⟩ := get?_start hstart (runCalls host cs {})
      rw [of_decide_eq_true hhash, hjob] at hjob'
      cases hjob'
      exact ⟨e, rfl, hlog⟩
    | none =>
      rw [Option.none_or]
      refine ih (get?_apply (fun e he hhash => ?_) _ hjob)
      have := Option.filter_eq_none_iff.mp hc e he
      simp [hhash] at this

/-! ## The log directory -/

theorem bstLogs_eq (host : Host) :
    bstLogs host = rstrip (· == '/') host.home ++ "/.cache/buildstream".toList ++
      '/' :: "logs".toList := by
  rw [bstLogs, Path.expanduser, List.append_assoc]
  exact if_neg (by simp)

theorem plain_logs : Path.Plain "logs".toList := ⟨by decide, by decide, by decide, by decide⟩

theorem names_logs : Path.names "logs".toList = ["logs".toList] :=
  List.splitOn_eq_singleton plain_logs.2.2.2

theorem rest_bstLogs (host : Host) : rest '/' (bstLogs host) = "logs".toList := by
  have hnames := @splitOn_eq _ _ '/' (bstLogs host)
  have happ := Path.names_append_slash
    (rstrip (· == '/') host.home ++ "/.cache/buildstream".toList) "logs".toList
  rw [← bstLogs_eq, Path.names, hnames, names_logs] at happ
  exact List.singleton_inj.mp (List.append_inj_right' happ rfl)

theorem plain_rest_bstLogs (host : Host) : Path.Plain (rest '/' (bstLogs host)) := by
  rw [rest_bstLogs]
  exact plain_logs

/-- The names of the log directory, on an absolute path. -/
def logNames (host : Host) (cwd : Cwd) : List Str :=
  Path.walk [] (Path.names (Path.absolute cwd.path (bstLogs host)))

theorem logNames_eq (host : Host) (cwd : Cwd) :
    ∃ above, logNames host cwd = above ++ ["logs".toList] := by
  refine ⟨Path.walk [] (Path.names (Path.absolute cwd.path
    (rstrip (· == '/') host.home ++ "/.cache/buildstream".toList))), ?_⟩
  rw [logNames, bstLogs_eq, Path.absolute_append (by simp), Path.names_append_slash, names_logs,
    Path.walk_append, Path.walk_plain (List.forall_mem_singleton.mpr plain_logs)]

theorem logNames_ne_nil (host : Host) (cwd : Cwd) : logNames host cwd ≠ [] := by
  obtain ⟨above, habove⟩ := logNames_eq host cwd
  simp [habove]

theorem plain_logNames (host : Host) (cwd : Cwd) : ∀ x ∈ logNames host cwd, Path.Plain x :=
  Path.plain_walk (by simp) fun _ => Path.notMem_names

theorem abspath_bstLogs (host : Host) (cwd : Cwd) :
    Path.abspath cwd.path (bstLogs host) =
      Path.render (Path.slashes (Path.absolute cwd.path (bstLogs host))) (logNames host cwd) :=
  Path.abspath_eq cwd.absolute _

/-- A normalised path that begins with the text of the log directory shows that the text is
normalised. -/
theorem abspath_bstLogs_of_prefix {host : Host} {cwd : Cwd} {p : Str}
    (h : bstLogs host <+: Path.abspath cwd.path p) :
    Path.abspath cwd.path (bstLogs host) = bstLogs host := by
  obtain ⟨r, hr⟩ := h
  rw [Path.abspath_eq cwd.absolute] at hr
  have hn := Path.slashes_absolute (Path.absolute_isAbsolute cwd.absolute p)
  obtain ⟨as, has, heq⟩ := Path.eq_render_of_append
    (Path.plain_walk (by simp) fun _ => Path.notMem_names) (plain_rest_bstLogs host) hr.symm
  have hplain : ∀ c ∈ as ++ [rest '/' (bstLogs host)], Path.Plain c := by
    intro c hc
    rcases List.mem_append.mp hc with hc | hc
    · exact has c hc
    · exact List.mem_singleton.mp hc ▸ plain_rest_bstLogs host
  have habs : Path.isAbsolute (bstLogs host) := heq ▸ Path.isAbsolute_render hn _
  rw [Path.abspath, Path.absolute, if_pos habs]
  conv_lhs => rw [heq]
  rw [Path.normpath_render hn (by simp) hplain, ← heq]

/-! ## Staying below the log directory -/

/-- The path, normalised, lies below the normalised log directory. -/
def InLogs (host : Host) (cwd : Cwd) (p : Str) : Prop :=
  Path.Below (Path.abspath cwd.path (bstLogs host)) (Path.abspath cwd.path p)

/-- The character behind the text of the log directory, in the normalised path, is a slash. -/
def SlashBehind (host : Host) (cwd : Cwd) (p : Str) : Prop :=
  ((Path.abspath cwd.path p).drop (bstLogs host).length).head? = some '/'

theorem inLogs_iff_slashBehind {host : Host} {cwd : Cwd} {p : Str}
    (h : bstLogs host <+: Path.abspath cwd.path p) :
    InLogs host cwd p ↔ SlashBehind host cwd p := by
  have hdir := abspath_bstLogs_of_prefix h
  obtain ⟨r, hr⟩ := h
  rw [InLogs, SlashBehind, hdir, ← hr, List.drop_left, Path.Below, List.prefix_append_right_inj]
  cases r with
  | nil => simp
  | cons x r => simp [List.cons_prefix_cons, eq_comm]

/-- The names of the message begin with those of the log directory that it has dropped: with
none when it climbs nowhere, with all of them when it is absolute. -/
def NamesDropped (host : Host) (cwd : Cwd) (msg : Str) : Prop :=
  if Path.isAbsolute msg then
    Path.slashes msg = Path.slashes (Path.absolute cwd.path (bstLogs host)) ∧
      logNames host cwd <+: (Path.relative (Path.names msg)).2
  else
    (logNames host cwd).drop
        ((logNames host cwd).length - (Path.relative (Path.names msg)).1) <+:
      (Path.relative (Path.names msg)).2

theorem join_bstLogs {host : Host} {msg : Str} (h : Path.isAbsolute msg = false) :
    Path.join (bstLogs host) msg = bstLogs host ++ '/' :: msg := by
  have hmsg : msg.head? ≠ some '/' := by simpa [Path.isAbsolute] using h
  have hlast : (bstLogs host).getLast? ≠ some '/' := by
    rw [bstLogs_eq]
    simp
  have hne : bstLogs host ≠ [] := by
    rw [bstLogs_eq]
    simp
  rw [Path.join, if_neg hmsg, if_neg (by simp [hne, hlast])]

/-- The last name of a message that ends in `.log` ends in it too. -/
theorem rest_of_log {msg : Str} (h : ".log".toList <:+ msg) :
    ∃ x, rest '/' msg = x ++ ".log".toList ∧ '/' ∉ x ++ ".log".toList := by
  obtain ⟨x, rfl⟩ := h
  have hslash : '/' ∉ rest '/' x ++ ".log".toList := by
    rw [List.mem_append]
    exact not_or.mpr ⟨notMem_rest x, by decide⟩
  exact ⟨_, by rw [rest_append, rest_of_notMem hslash], hslash⟩

theorem plain_rest_of_log {msg : Str} (h : ".log".toList <:+ msg) :
    Path.Plain (rest '/' msg) := by
  obtain ⟨x, hrest, hslash⟩ := rest_of_log h
  rw [hrest]
  refine ⟨?_, ?_, ?_, hslash⟩ <;>
  · intro he
    have := congrArg List.length he
    simp at this

/-- The names that a message appends end in its own last name, which is not that of the log
directory. -/
theorem drop_ne_relative {msg : Str} (h : ".log".toList <:+ msg) (host : Host) (cwd : Cwd)
    (k : Nat) : (logNames host cwd).drop k ≠ (Path.relative (Path.names msg)).2 := by
  have hnames : Path.names msg = lines '/' msg ++ [rest '/' msg] := splitOn_eq msg
  rw [hnames, Path.relative_concat_plain _ (plain_rest_of_log h)]
  intro heq
  obtain ⟨above, habove⟩ := logNames_eq host cwd
  have hlogs : (logNames host cwd).getLast? = some "logs".toList := by simp [habove]
  have hlast := congrArg List.getLast? heq
  rw [List.getLast?_concat, List.getLast?_drop] at hlast
  split at hlast
  · cases hlast
  rw [hlogs, Option.some_inj] at hlast
  obtain ⟨x, hrest, -⟩ := rest_of_log h
  rw [hrest] at hlast
  have hend := congrArg List.getLast? hlast
  have hg : ".log".toList.getLast? = some 'g' := rfl
  rw [List.getLast?_append, hg, Option.some_or] at hend
  exact absurd hend (by decide)

theorem exists_cons_iff_prefix {α : Type*} {as bs : List α} (h : as ≠ bs) :
    (∃ x xs, bs = as ++ x :: xs) ↔ as <+: bs := by
  constructor
  · rintro ⟨x, xs, rfl⟩
    exact List.prefix_append _ _
  · rintro ⟨r, rfl⟩
    obtain ⟨x, xs, rfl⟩ := List.exists_cons_of_ne_nil (l := r) fun hr => h (by simp [hr])
    exact ⟨x, xs, rfl⟩

/-- The file of a message that ends in `.log` lies below the log directory if and only if the
message names again what it has dropped. -/
theorem inLogs_join_iff {msg : Str} (hlog : ".log".toList <:+ msg) (host : Host) (cwd : Cwd) :
    InLogs host cwd (Path.join (bstLogs host) msg) ↔ NamesDropped host cwd msg := by
  have hplain := plain_logNames host cwd
  have hdots : ['.', '.'] ∉ logNames host cwd := fun hmem => (hplain _ hmem).2.2.1 rfl
  cases h : Path.isAbsolute msg with
  | true =>
    have hjoin : Path.join (bstLogs host) msg = msg := if_pos (by simpa [Path.isAbsolute] using h)
    have habs : Path.absolute cwd.path msg = msg := if_pos h
    have hwalk := @Path.walk_eq_relative [] List.not_mem_nil (Path.names msg)
    rw [List.take_nil, List.nil_append] at hwalk
    rw [InLogs, abspath_bstLogs, hjoin, Path.abspath_eq cwd.absolute, habs,
      Path.below_render_iff (logNames_ne_nil host cwd) hplain
        (Path.plain_walk (by simp) fun _ => Path.notMem_names), hwalk]
    have hnames := exists_cons_iff_prefix (drop_ne_relative hlog host cwd 0)
    rw [List.drop_zero] at hnames
    rw [hnames, NamesDropped, if_pos h, eq_comm]
  | false =>
    have hlen : 3 ≤ (bstLogs host).length := by
      rw [bstLogs_eq]
      simp
    have hsplit : ∀ k (ys : List Str) (x : Str) (xs : List Str),
        (logNames host cwd).take k ++ ys = logNames host cwd ++ x :: xs ↔
          ys = (logNames host cwd).drop k ++ x :: xs := by
      intro k ys x xs
      conv_lhs => rhs; rw [← List.take_append_drop k (logNames host cwd), List.append_assoc]
      exact List.append_right_inj _
    rw [InLogs, abspath_bstLogs, join_bstLogs h,
      Path.abspath_append_slash cwd.absolute hlen, ← logNames,
      Path.below_render_iff (logNames_ne_nil host cwd) hplain
        (Path.plain_walk hplain fun _ => Path.notMem_names), Path.walk_eq_relative hdots]
    simp only [hsplit, true_and, exists_cons_iff_prefix (drop_ne_relative hlog host cwd _)]
    rw [NamesDropped, if_neg (by simp [h])]

/-! ## The endpoint -/

/-- What the request names lies below the log directory: behind `path`, by the character
behind the directory's text; behind `hash`, by the names in the message of the START line. -/
def Harmless (host : Host) (cwd : Cwd) (cs : List Call) (query : Str) : Prop :=
  match param query "path".toList with
  | some quoted => SlashBehind host cwd (unquote quoted)
  | none =>
    ∀ h ∈ param query "hash".toList, ∀ e ∈ lastStart host cs h,
      NamesDropped host cwd e.msg

/-- **The log endpoint.** After any lines, the file that a request opens lies below the log
directory if and only if, behind `path`, the character behind the text of the directory is a
slash, or, behind `hash`, the message of the job's last START line names again the names of the
directory that it drops. -/
theorem log_endpoint_contained_iff {host : Host} {cwd : Cwd} {fs : Fs} {cs : List Call}
    {selfPath p : Str} (h : opened host cwd fs (runCalls host cs {}) selfPath = some p) :
    InLogs host cwd p ↔ Harmless host cwd cs (normPath selfPath).2 := by
  unfold opened at h
  split at h
  swap
  · cases h
  obtain ⟨hpath, hp⟩ := Option.filter_eq_some_iff.mp h
  simp only [Bool.and_eq_true, decide_eq_true_eq] at hp
  unfold logPath at hpath
  unfold Harmless
  generalize (normPath selfPath).2 = query at hpath
  split at hpath
  · rename_i quoted hq
    dsimp only at hpath
    split at hpath
    · cases hpath
      exact inLogs_iff_slashBehind (List.isPrefixOf_iff_prefix.mp ‹_›)
    · cases hpath
  · split at hpath
    · rename_i key hkey
      obtain ⟨job, hjob, rfl⟩ := Option.map_eq_some_iff.mp hpath
      obtain ⟨e, he, hlog⟩ := log_of_active hjob
      have hmsg : ".log".toList <:+ e.msg := by
        by_contra hn
        refine hp.1.1 ?_
        rw [hlog, Event.hostLog, if_neg (by simpa using hn)]
      have hjoin : job.log = Path.join (bstLogs host) e.msg := by
        rw [hlog, Event.hostLog, if_pos (by simpa using hmsg)]
      rw [hjoin, inLogs_join_iff hmsg]
      constructor
      · intro hnames key' hkey' e' he'
        rw [hkey] at hkey'
        cases hkey'
        rw [he] at he'
        cases he'
        exact hnames
      · intro hall
        exact hall key hkey e he
    · cases hpath

/-- The START lines of a job whose log lies below the log directory, and of one whose log does
not. -/
def startLines : List Call :=
  ["[00:00:01][ab][build:kde/plasma/kwin.bst] START   kde/ab-build.log",
    "[00:00:01][cd][build:kde/apps/dolphin.bst] START   ../logs-old/cd-build.log"].map
      fun line => .line ⟨0, 0⟩ line.toList

theorem harmless_hash {host : Host} {cwd : Cwd} {cs : List Call} {query key msg : Str}
    (hpath : param query "path".toList = none) (hhash : param query "hash".toList = some key)
    (hstart : (lastStart host cs key).map (·.msg) = some msg) :
    Harmless host cwd cs query ↔ NamesDropped host cwd msg := by
  obtain ⟨e, he, rfl⟩ := Option.map_eq_some_iff.mp hstart
  rw [Harmless, hpath, hhash]
  simp [he]

theorem log_endpoint_contained_iff_startLines :
    InLogs Host.root ⟨['/'], rfl⟩ "/root/.cache/buildstream/logs/kde/ab-build.log".toList ∧
      ¬ InLogs Host.root ⟨['/'], rfl⟩
        "/root/.cache/buildstream/logs/../logs-old/cd-build.log".toList := by
  have hkwin : opened Host.root ⟨['/'], rfl⟩ ⟨fun _ => true, fun _ => some []⟩
      (runCalls Host.root startLines {}) "/api/log?hash=ab".toList =
        some "/root/.cache/buildstream/logs/kde/ab-build.log".toList := by decide +kernel
  have hdolphin : opened Host.root ⟨['/'], rfl⟩ ⟨fun _ => true, fun _ => some []⟩
      (runCalls Host.root startLines {}) "/api/log?hash=cd".toList =
        some "/root/.cache/buildstream/logs/../logs-old/cd-build.log".toList := by
    decide +kernel
  have hstart : (lastStart Host.root startLines "ab".toList).map (·.msg) =
      some "kde/ab-build.log".toList := by decide +kernel
  have hstart' : (lastStart Host.root startLines "cd".toList).map (·.msg) =
      some "../logs-old/cd-build.log".toList := by decide +kernel
  constructor
  · rw [log_endpoint_contained_iff hkwin,
      harmless_hash (by decide +kernel) (by decide +kernel) hstart]
    unfold NamesDropped
    decide +kernel
  · rw [log_endpoint_contained_iff hdolphin,
      harmless_hash (by decide +kernel) (by decide +kernel) hstart']
    unfold NamesDropped
    decide +kernel

/-- `GET /api/log?path=/root/.cache/buildstream/logs-old/x` -/
theorem sibling_directory_opened :
    ¬ ∀ (host : Host) (cwd : Cwd) (fs : Fs) (cs : List Call) (selfPath p : Str),
      opened host cwd fs (runCalls host cs {}) selfPath = some p → InLogs host cwd p := by
  intro h
  have hin := h Host.root ⟨['/'], rfl⟩ ⟨fun _ => true, fun _ => some []⟩ []
    "/api/log?path=/root/.cache/buildstream/logs-old/x".toList
    "/root/.cache/buildstream/logs-old/x".toList (by decide +kernel)
  revert hin
  unfold InLogs Path.Below
  decide +kernel

end XfceLinux.Dashboard
