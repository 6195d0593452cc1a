import XfceLinux.Lib.Lines
import XfceLinux.Lib.Path

/-!
# `os.path.normpath` and `os.path.abspath`

An absolute path is normalised by walking through its names with a stack: empty names and
`.` are passed over, `..` drops a name. The result is one or two slashes and the names on
the stack (`normpath_absolute`), and it is normal (`normpath_render`). On normal paths,
being below a directory is a matter of the names (`below_render_iff`). A beginning of a
normal path that ends in a name is normal itself (`eq_render_of_append`). From any stack, the
names of a relative path drop some names and leave others behind (`walk_eq_relative`).
-/

namespace XfceLinux.Lib.Path

open Text Lines

/-! ## Definitions -/

def names (p : Str) : List Str := p.splitOn '/'

def isAbsolute (p : Str) : Bool := p.head? = some '/'

/-- One round of the loop of `normpath`. -/
def push (absolute : Bool) (stack : List Str) (c : Str) : List Str :=
  if c = [] ∨ c = ['.'] then stack
  else if c ≠ ['.', '.'] ∨ (!absolute ∧ stack = []) ∨ stack.getLast? = some ['.', '.'] then
    stack ++ [c]
  else stack.dropLast

/-- The names on the stack behind an absolute path. -/
def walk (stack cs : List Str) : List Str := cs.foldl (push true) stack

/-- `initial_slashes`: two slashes count as such, three or more as one. -/
def slashes (p : Str) : Nat :=
  if isAbsolute p then
    if "//".toList.isPrefixOf p ∧ ¬ "///".toList.isPrefixOf p then 2 else 1
  else 0

def render (n : Nat) (cs : List Str) : Str := List.replicate n '/' ++ ['/'].intercalate cs

/-- `os.path.normpath(p)` -/
def normpath (p : Str) : Str :=
  if p = [] then ['.']
  else
    let path := render (slashes p) ((names p).foldl (push (isAbsolute p)) [])
    if path = [] then ['.'] else path

/-- The absolute path that `p` stands for in the working directory `cwd`. -/
def absolute (cwd p : Str) : Str := if isAbsolute p then p else join cwd p

/-- `os.path.abspath(p)` in the working directory `cwd`. -/
def abspath (cwd p : Str) : Str := normpath (absolute cwd p)

/-- A name that is neither empty nor `.` nor `..`. -/
def Plain (c : Str) : Prop := c ≠ [] ∧ c ≠ ['.'] ∧ c ≠ ['.', '.'] ∧ '/' ∉ c

/-- One name of a relative path, behind `p.1` names dropped from its start and the names `p.2`. -/
def relativeStep (p : Nat × List Str) (c : Str) : Nat × List Str :=
  if c = [] ∨ c = ['.'] then p
  else if c ≠ ['.', '.'] then (p.1, p.2 ++ [c])
  else if p.2 = [] then (p.1 + 1, [])
  else (p.1, p.2.dropLast)

/-- How many names a relative path drops from its start, and the names it then appends. -/
def relative (cs : List Str) : Nat × List Str := cs.foldl relativeStep (0, [])

/-- The normalised path `p` lies below the normalised directory `dir`. -/
def Below (dir p : Str) : Prop := dir ++ ['/'] <+: p

/-! ## Walking -/

theorem push_plain {c : Str} (h : Plain c) (stack : List Str) :
    push true stack c = stack ++ [c] := by
  obtain ⟨h₁, h₂, h₃, -⟩ := h
  simp [push, h₁, h₂, h₃]

theorem walk_append (stack cs ds : List Str) : walk stack (cs ++ ds) = walk (walk stack cs) ds :=
  List.foldl_append

theorem walk_plain {cs : List Str} (h : ∀ c ∈ cs, Plain c) (stack : List Str) :
    walk stack cs = stack ++ cs := by
  induction cs generalizing stack with
  | nil => simp [walk]
  | cons c cs ih =>
    have hcs := ih (fun d hd => h d (List.mem_cons_of_mem _ hd)) (stack ++ [c])
    change walk (push true stack c) cs = _
    rw [push_plain (h c List.mem_cons_self), hcs, List.append_assoc, List.singleton_append]

theorem walk_replicate_nil (n : Nat) (stack cs : List Str) :
    walk stack (List.replicate n [] ++ cs) = walk stack cs := by
  induction n with
  | zero => rfl
  | succ n ih => exact ih

theorem plain_push {stack : List Str} (h : ∀ x ∈ stack, Plain x) {c : Str} (hc : '/' ∉ c) :
    ∀ x ∈ push true stack c, Plain x := by
  intro x hx
  unfold push at hx
  split at hx
  · exact h x hx
  rename_i hne
  split at hx
  · rename_i hcond
    rcases List.mem_append.mp hx with hx | hx
    · exact h x hx
    · obtain rfl := List.mem_singleton.mp hx
      refine ⟨fun he => hne (.inl he), fun he => hne (.inr he), fun he => ?_, hc⟩
      rcases hcond with hcond | hcond | hcond
      · exact hcond he
      · simp at hcond
      · exact (h _ (List.mem_of_getLast? hcond)).2.2.1 rfl
  · exact h x (List.dropLast_subset _ hx)

theorem plain_walk {stack cs : List Str} (h : ∀ x ∈ stack, Plain x) (hcs : ∀ c ∈ cs, '/' ∉ c) :
    ∀ x ∈ walk stack cs, Plain x := by
  induction cs generalizing stack with
  | nil => exact h
  | cons c cs ih =>
    exact ih (plain_push h (hcs c List.mem_cons_self)) fun d hd => hcs d (List.mem_cons_of_mem _ hd)

theorem notMem_names {p c : Str} (h : c ∈ names p) : '/' ∉ c := notMem_of_mem_splitOn h

theorem names_append_slash (p q : Str) : names (p ++ '/' :: q) = names p ++ names q :=
  List.splitOn_append_cons_self p q

/-! ## Normal paths -/

theorem replicate_eq_unlines (n : Nat) :
    List.replicate n '/' = unlines '/' (List.replicate n ([] : Str)) := by
  induction n with
  | zero => rfl
  | succ n ih =>
    rw [List.replicate_succ, List.replicate_succ, ih]
    rfl

theorem notMem_replicate_nil (n : Nat) : ∀ l ∈ List.replicate n ([] : Str), '/' ∉ l := by
  intro l hl
  rw [List.eq_of_mem_replicate hl]
  exact List.not_mem_nil

theorem names_render {n : Nat} {cs : List Str} (hne : cs ≠ []) (h : ∀ c ∈ cs, Plain c) :
    names (render n cs) = List.replicate n [] ++ cs := by
  rw [names, render, replicate_eq_unlines, splitOn_unlines_append (notMem_replicate_nil n),
    List.splitOn_intercalate '/' (fun l hl => (h l hl).2.2.2) hne]

theorem slashes_render {n : Nat} (hn : n = 1 ∨ n = 2) {cs : List Str} (hne : cs ≠ [])
    (h : ∀ c ∈ cs, Plain c) : slashes (render n cs) = n := by
  obtain ⟨c, cs, rfl⟩ := List.exists_cons_of_ne_nil hne
  obtain ⟨hc, -, -, hslash⟩ := h c List.mem_cons_self
  obtain ⟨x, c, rfl⟩ := List.exists_cons_of_ne_nil hc
  have hx : x ≠ '/' := fun hx => hslash (hx ▸ List.mem_cons_self)
  obtain ⟨t, ht⟩ : ∃ t, ['/'].intercalate ((x :: c) :: cs) = x :: t := by
    cases cs with
    | nil => exact ⟨c, by simp⟩
    | cons d ds => exact ⟨c ++ '/' :: ['/'].intercalate (d :: ds), by simp⟩
  rcases hn with rfl | rfl
  · simp [slashes, isAbsolute, render, ht, hx.symm]
  · simp [slashes, isAbsolute, render, ht, hx.symm, List.replicate]

theorem slashes_absolute {p : Str} (h : isAbsolute p) : slashes p = 1 ∨ slashes p = 2 := by
  unfold slashes
  rw [if_pos h]
  split
  · exact .inr rfl
  · exact .inl rfl

theorem normpath_absolute {p : Str} (h : isAbsolute p) :
    normpath p = render (slashes p) (walk [] (names p)) := by
  have hp : p ≠ [] := by
    rintro rfl
    simp [isAbsolute] at h
  have hne : render (slashes p) (walk [] (names p)) ≠ [] := by
    rcases slashes_absolute h with hs | hs <;> simp [render, hs]
  simp only [normpath, hp, h, if_false]
  exact if_neg hne

theorem isAbsolute_render {n : Nat} (hn : n = 1 ∨ n = 2) (cs : List Str) :
    isAbsolute (render n cs) := by
  rcases hn with rfl | rfl <;> simp [isAbsolute, render, List.replicate]

theorem normpath_render {n : Nat} (hn : n = 1 ∨ n = 2) {cs : List Str} (hne : cs ≠ [])
    (h : ∀ c ∈ cs, Plain c) : normpath (render n cs) = render n cs := by
  rw [normpath_absolute (isAbsolute_render hn cs), slashes_render hn hne h, names_render hne h,
    walk_replicate_nil, walk_plain h, List.nil_append]

theorem eq_nil_of_mem_names {n : Nat} {c : Str} (h : c ∈ names (render n [])) : c = [] := by
  have hnames := splitOn_unlines_append (notMem_replicate_nil n) []
  rw [List.append_nil, ← replicate_eq_unlines, List.splitOn_nil] at hnames
  rw [names, render, List.intercalate_nil, List.append_nil, hnames] at h
  rcases List.mem_append.mp h with h | h
  · exact List.eq_of_mem_replicate h
  · exact List.mem_singleton.mp h

theorem names_cons {x : Char} (hx : x ≠ '/') (p : Str) :
    ∃ m ms, names (x :: p) = (x :: m) :: ms := by
  obtain ⟨m, ms, hms⟩ := List.exists_cons_of_ne_nil (List.splitOn_ne_nil '/' p)
  refine ⟨m, ms, ?_⟩
  rw [names, List.splitOn_cons_eq_if_modifyHead, hms, if_neg (by simpa using hx),
    List.modifyHead_cons]

/-- A beginning of a normal path that ends in a name is normal. -/
theorem eq_render_of_append {n : Nat} {cs : List Str} (hcs : ∀ c ∈ cs, Plain c) {d r : Str}
    (hd : Plain (rest '/' d)) (h : render n cs = d ++ r) :
    ∃ as, (∀ c ∈ as, Plain c) ∧ d = render n (as ++ [rest '/' d]) := by
  obtain ⟨x, y, hxy⟩ := List.exists_cons_of_ne_nil hd.1
  have hx : x ≠ '/' := fun hx => hd.2.2.2 (hxy ▸ hx ▸ List.mem_cons_self)
  obtain ⟨m, ms, hms⟩ := names_cons hx (y ++ r)
  have hnames : names (render n cs) = lines '/' d ++ (x :: m) :: ms := by
    rw [h, names, splitOn_append, hxy, ← hms]
    rfl
  obtain ⟨as, has, hlines⟩ : ∃ as, (∀ c ∈ as, Plain c) ∧
      lines '/' d = List.replicate n [] ++ as := by
    by_cases hne : cs = []
    · have hmem : x :: m ∈ names (render n cs) := by simp [hnames]
      rw [hne] at hmem
      cases eq_nil_of_mem_names hmem
    · rw [names_render hne hcs] at hnames
      rcases List.append_eq_append_iff.mp hnames with ⟨as, has, hcs'⟩ | ⟨as, has, hcs'⟩
      · refine ⟨as, fun c hc => hcs c ?_, has⟩
        rw [hcs']
        exact List.mem_append_left _ hc
      · cases as with
        | nil => exact ⟨[], by simp, by simpa using has.symm⟩
        | cons a as =>
          have hmem : a ∈ List.replicate n ([] : Str) := by simp [has]
          rw [List.cons_append, List.cons.injEq] at hcs'
          rw [← hcs'.1] at hmem
          simp at hmem
  refine ⟨as, has, ?_⟩
  conv_lhs => rw [← unlines_lines_append_rest '/' d, hlines]
  rw [render, intercalate_append_singleton, replicate_eq_unlines, unlines, List.flatMap_append,
    List.append_assoc]
  rfl

theorem replicate_nil_append_inj {m n : Nat} {as bs : List Str} (ha : as.head? ≠ some [])
    (hb : bs.head? ≠ some []) (h : List.replicate m [] ++ as = List.replicate n [] ++ bs) :
    m = n ∧ as = bs := by
  induction m generalizing n with
  | zero =>
    cases n with
    | zero => exact ⟨rfl, h⟩
    | succ n =>
      rw [List.replicate_zero, List.nil_append] at h
      exact absurd (by rw [h]; rfl) ha
  | succ m ih =>
    cases n with
    | zero =>
      rw [List.replicate_zero, List.nil_append] at h
      exact absurd (by rw [← h]; rfl) hb
    | succ n =>
      obtain ⟨rfl, rfl⟩ := ih (List.cons.inj h).2
      exact ⟨rfl, rfl⟩

theorem intercalate_append {as : List Str} (has : as ≠ []) (x : Str) (xs : List Str) :
    ['/'].intercalate (as ++ x :: xs) =
      ['/'].intercalate as ++ '/' :: ['/'].intercalate (x :: xs) := by
  induction as with
  | nil => exact absurd rfl has
  | cons a as ih =>
    cases as with
    | nil => simp
    | cons b as =>
      rw [List.cons_append, List.cons_append, List.intercalate_cons_cons, ← List.cons_append,
        ih (by simp), List.intercalate_cons_cons]
      simp

theorem head?_ne_nil {cs : List Str} (h : ∀ c ∈ cs, Plain c) : cs.head? ≠ some [] :=
  fun hc => (h [] (List.mem_of_head? hc)).1 rfl

/-- **Below a directory.** On normal paths, the names decide. -/
theorem below_render_iff {m n : Nat} {as bs : List Str} (has : as ≠ [])
    (hpa : ∀ c ∈ as, Plain c) (hpb : ∀ c ∈ bs, Plain c) :
    Below (render m as) (render n bs) ↔ m = n ∧ ∃ x xs, bs = as ++ x :: xs := by
  constructor
  · rintro ⟨r, hr⟩
    rw [List.append_assoc, List.singleton_append] at hr
    have hnames := congrArg names hr
    rw [names_append_slash, names_render has hpa] at hnames
    obtain ⟨x, xs, hx⟩ := List.exists_cons_of_ne_nil (List.splitOn_ne_nil '/' r)
    by_cases hne : bs = []
    · obtain ⟨a, as, rfl⟩ := List.exists_cons_of_ne_nil has
      have hmem : a ∈ names (render n bs) := by simp [← hnames]
      rw [hne] at hmem
      exact absurd (eq_nil_of_mem_names hmem) (hpa a List.mem_cons_self).1
    · rw [names_render hne hpb, List.append_assoc] at hnames
      have hhead : (as ++ names r).head? ≠ some [] := by
        rw [List.head?_append_of_ne_nil _ has]
        exact head?_ne_nil hpa
      obtain ⟨rfl, rfl⟩ := replicate_nil_append_inj hhead (head?_ne_nil hpb) hnames
      exact ⟨rfl, x, xs, by rw [names, hx]⟩
  · rintro ⟨rfl, x, xs, rfl⟩
    rw [render, render, intercalate_append has, Below, List.append_assoc]
    exact ⟨['/'].intercalate (x :: xs), by simp⟩

/-! ## Paths relative to a directory -/

theorem relative_concat (cs : List Str) (c : Str) :
    relative (cs ++ [c]) = relativeStep (relative cs) c := by
  rw [relative, List.foldl_append]
  rfl

theorem notMem_relative (cs : List Str) : ['.', '.'] ∉ (relative cs).2 := by
  induction cs using List.reverseRecOn with
  | nil => exact List.not_mem_nil
  | append_singleton cs c ih =>
    rw [relative_concat]
    unfold relativeStep
    split_ifs with hskip hname hnil
    · exact ih
    · rw [List.mem_append, List.mem_singleton]
      exact not_or.mpr ⟨ih, Ne.symm hname⟩
    · exact List.not_mem_nil
    · exact fun hmem => ih (List.dropLast_subset _ hmem)

theorem dropLast_take_sub (l : List Str) (m : Nat) :
    (l.take (l.length - m)).dropLast = l.take (l.length - (m + 1)) := by
  rw [List.dropLast_eq_take, List.take_take, List.length_take]
  congr 1
  omega

/-- **Walking a relative path** drops names from the stack and appends names. -/
theorem walk_eq_relative {base : List Str} (hbase : ['.', '.'] ∉ base) (cs : List Str) :
    walk base cs = base.take (base.length - (relative cs).1) ++ (relative cs).2 := by
  induction cs using List.reverseRecOn with
  | nil => simp [walk, relative]
  | append_singleton cs c ih =>
    have hpush : walk base (cs ++ [c]) = push true (walk base cs) c := by
      rw [walk_append]
      rfl
    have hdots : (walk base cs).getLast? ≠ some ['.', '.'] := by
      intro hlast
      rw [ih] at hlast
      rcases List.mem_append.mp (List.mem_of_getLast? hlast) with hmem | hmem
      · exact hbase (List.mem_of_mem_take hmem)
      · exact notMem_relative cs hmem
    rw [hpush, relative_concat]
    unfold push relativeStep
    by_cases hskip : c = [] ∨ c = ['.']
    · simp only [hskip, if_true, ih]
    by_cases hname : c ≠ ['.', '.']
    · simp only [hskip, hname, if_false, if_true, ne_eq, not_false_eq_true, true_or, ih,
        List.append_assoc]
    have hkept : ¬ (c ≠ ['.', '.'] ∨ (!true) ∧ walk base cs = [] ∨
        (walk base cs).getLast? = some ['.', '.']) := by simp [hname, hdots]
    rw [if_neg hskip, if_neg hkept, if_neg hskip, if_neg hname, ih]
    split
    · rename_i hnil
      rw [hnil, List.append_nil, List.append_nil, dropLast_take_sub]
    · rename_i hne
      rw [List.dropLast_append_of_ne_nil hne]

theorem relative_concat_plain (cs : List Str) {c : Str} (h : Plain c) :
    (relative (cs ++ [c])).2 = (relative cs).2 ++ [c] := by
  rw [relative_concat, relativeStep, if_neg (not_or.mpr ⟨h.1, h.2.1⟩), if_pos h.2.2.1]

theorem absolute_isAbsolute {cwd : Str} (hcwd : isAbsolute cwd) (p : Str) :
    isAbsolute (absolute cwd p) := by
  unfold absolute
  split
  · assumption
  · rename_i hp
    obtain ⟨x, w, rfl⟩ := List.exists_cons_of_ne_nil (l := cwd) (by rintro rfl; cases hcwd)
    have hp' : p.head? ≠ some '/' := by simpa [isAbsolute] using hp
    unfold join
    rw [if_neg hp']
    split <;> exact hcwd

theorem absolute_append {cwd d : Str} (hd : d ≠ []) (q : Str) :
    absolute cwd (d ++ q) = absolute cwd d ++ q := by
  obtain ⟨x, d, rfl⟩ := List.exists_cons_of_ne_nil hd
  have habs : isAbsolute (x :: d ++ q) = isAbsolute (x :: d) := rfl
  have hhead : (x :: d ++ q).head? = (x :: d).head? := rfl
  unfold absolute
  rw [habs]
  split
  · rfl
  · unfold join
    rw [hhead]
    split_ifs <;> simp

theorem length_absolute (cwd p : Str) : p.length ≤ (absolute cwd p).length := by
  unfold absolute join
  split_ifs <;> simp
  omega

theorem slashes_append {p : Str} (h : 3 ≤ p.length) (q : Str) : slashes (p ++ q) = slashes p := by
  obtain ⟨a, b, c, p, rfl⟩ : ∃ a b c t, p = a :: b :: c :: t := by
    match p, h with
    | a :: b :: c :: t, _ => exact ⟨a, b, c, t, rfl⟩
  simp [slashes, isAbsolute]

theorem abspath_eq {cwd : Str} (hcwd : isAbsolute cwd) (p : Str) :
    abspath cwd p = render (slashes (absolute cwd p)) (walk [] (names (absolute cwd p))) :=
  normpath_absolute (absolute_isAbsolute hcwd p)

/-- A relative path goes on with the walk of its directory. -/
theorem abspath_append_slash {cwd d : Str} (hcwd : isAbsolute cwd) (hd : 3 ≤ d.length) (q : Str) :
    abspath cwd (d ++ '/' :: q) =
      render (slashes (absolute cwd d)) (walk (walk [] (names (absolute cwd d))) (names q)) := by
  have hne : d ≠ [] := by
    rintro rfl
    simp at hd
  rw [abspath_eq hcwd, absolute_append hne, names_append_slash, walk_append,
    slashes_append (hd.trans (length_absolute cwd d))]

end XfceLinux.Lib.Path
