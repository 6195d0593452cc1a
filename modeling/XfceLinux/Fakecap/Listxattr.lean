import XfceLinux.Fakecap.Lookup

/-!
# Listing attributes

An intercepted `listxattr` lets the next library fill the caller's buffer and goes on behind
its names with those of the store. Its result is the sum of the two results, also when the
second one is `-1` (`listxattr_obeys_iff`).
-/

namespace XfceLinux.Fakecap

open Lib Lib.Text Lib.Cstring

/-! ## `list_metadata` -/

/-- `%u-%u-%lu-` -/
def metadataPrefix (st : Stat) : Bytes :=
  decimal (major st.dev) ++ dash :: decimal (minor st.dev) ++ dash :: decimal st.ino.toNat ++ [dash]

/-- What a call returns, with `errno` when it fails, and the caller's buffer behind it. -/
structure ListReply where
  ret : Int
  errno : Option Errno
  buf : Bytes

/-- The loop over `existing_list` from `offset` on, for at most `n` rounds. -/
def foundFrom (existing_list : Bytes) (existing_size : Nat) (name : Bytes) : Nat → Nat → Bool
  | 0, _ => false
  | n + 1, offset =>
    if offset < existing_size then
      let entry_len := (strAt existing_list offset).length
      if strcmp (strAt existing_list offset) name = .eq then true
      else foundFrom existing_list existing_size name n (offset + entry_len + 1)
    else false

def found (existing_list : Bytes) (existing_size : Nat) (name : Bytes) : Bool :=
  foundFrom existing_list existing_size name existing_size 0

/-- The caller's buffer, the pointer `list` into it or `NULL`, and the counters. -/
structure ListState where
  buf : Bytes
  list : Option Nat
  size : Nat
  written : Nat

/-- `list_metadata` over what `readdir` returns. `existing` is `existing_size` when
`existing_list`, the start of the buffer, is not `NULL`. -/
def listMetadata (pre : Bytes) (existing : Option Nat) : List Bytes → ListState → ListReply
  | [], s => ⟨s.written, none, s.buf⟩
  | d_name :: ents, s =>
    if !pre.isPrefixOf d_name then listMetadata pre existing ents s
    else
      let name := d_name.drop pre.length
      if existing.any fun existing_size => found s.buf existing_size name then
        listMetadata pre existing ents s
      else
        let name_len := name.length
        match s.list with
        | none =>
          listMetadata pre existing ents { s with written := s.written + (name_len + 1) }
        | some list =>
          if s.size ≤ name_len then ⟨-1, some .ERANGE, s.buf⟩
          else
            listMetadata pre existing ents {
              buf := strcpyAt s.buf list name
              list := some (list + (name_len + 1))
              size := s.size - (name_len + 1)
              written := s.written + (name_len + 1) }

/-! ## `listxattr` -/

/-- A call of `listxattr`, `llistxattr` or `flistxattr` with a buffer of `size` bytes. -/
structure ListCall where
  kernel : Kernel
  target : Target
  list : Bytes

def ListCall.size (c : ListCall) : Nat := c.list.length

/-- The call behind the next library, which has returned `next_ret`. `db` is what `opendir`
and `readdir` return for `FAKECAP_DB`. -/
def ListCall.more (c : ListCall) (next_ret : Nat) (buf : Bytes) (db : Option (List Bytes)) :
    ListReply :=
  match c.kernel.statOf c.target with
  | none => ⟨next_ret, none, buf⟩
  | some st =>
    let more : ListReply :=
      match db with
      | none => ⟨0, none, buf⟩
      | some ents =>
        if c.size = 0 then listMetadata (metadataPrefix st) none ents ⟨buf, none, 0, 0⟩
        else
          listMetadata (metadataPrefix st) (some next_ret) ents
            ⟨buf, some next_ret, c.size - next_ret, 0⟩
    ⟨next_ret + more.ret, more.errno, more.buf⟩

/-- The body that the three functions share, where `next` is what the next library returns.
The loop at the end of `flistxattr` has no effect. -/
def ListCall.run (c : ListCall) (next : ListReply) (db : Option (List Bytes)) : ListReply :=
  if next.ret < 0 ∧ next.errno ≠ some .ENOTSUP then next
  else c.more next.ret.toNat next.buf db

/-! ## The protocol -/

/-- Names as they stand in a list. -/
def pack (names : List Bytes) : Bytes := Lines.unlines 0 names

/-- The attributes that the real file system has for a file. -/
structure Names where
  names : List Bytes
  nodup : names.Nodup
  nul : ∀ name ∈ names, 0 ∉ name

/-- The real `listxattr`; without `Names` the file system knows no attributes. -/
def realListxattr (real : Option Names) (list : Bytes) : ListReply :=
  match real with
  | none => ⟨-1, some .ENOTSUP, list⟩
  | some r =>
    if list.length = 0 then ⟨(pack r.names).length, none, list⟩
    else if list.length < (pack r.names).length then ⟨-1, some .ERANGE, list⟩
    else ⟨(pack r.names).length, none, pack r.names ++ list.drop (pack r.names).length⟩

def realNames (real : Option Names) : List Bytes := real.elim [] Names.names

/-- The names of a directory. -/
structure Directory where
  ents : List Bytes
  nodup : ents.Nodup

/-- The attributes of a file that a directory has files for. -/
def storedNames (pre : Bytes) (ents : List Bytes) : List Bytes :=
  (ents.filter pre.isPrefixOf).map (·.drop pre.length)

/-- The names stored for the file of a call, where it can be found and the store read. -/
def ListCall.stored (c : ListCall) (db : Option Directory) : List Bytes :=
  match c.kernel.statOf c.target, db with
  | some st, some dir => storedNames (metadataPrefix st) dir.ents
  | _, _ => []

/-- The names of `ds` that `rs` lacks. -/
def fresh (rs ds : List Bytes) : List Bytes := ds.filter (· ∉ rs)

/-- The size protocol for the names of `rs` followed by those of `ds` not in `rs`. -/
structure Obeys (rs ds : List Bytes) (size : Nat) (reply : ListReply) : Prop where
  query : size = 0 → ((pack (rs ++ fresh rs ds)).length : Int) ≤ reply.ret
  full : size ≠ 0 → (pack (rs ++ fresh rs ds)).length ≤ size →
    reply.ret = (pack (rs ++ fresh rs ds)).length ∧
      ∃ names, names.Nodup ∧ (∀ name, name ∈ names ↔ name ∈ rs ∨ name ∈ ds) ∧
        reply.buf.take (pack (rs ++ fresh rs ds)).length = pack names
  small : size ≠ 0 → size < (pack (rs ++ fresh rs ds)).length →
    reply.ret = -1 ∧ reply.errno = some .ERANGE

/-! ## The names of the store -/

theorem nodup_storedNames (pre : Bytes) {ents : List Bytes} (h : ents.Nodup) :
    (storedNames pre ents).Nodup := by
  refine List.Nodup.map_on ?_ (h.filter _)
  intro x hx y hy hxy
  have hx := List.prefix_iff_eq_append.mp (List.isPrefixOf_iff_prefix.mp (List.mem_filter.mp hx).2)
  have hy := List.prefix_iff_eq_append.mp (List.isPrefixOf_iff_prefix.mp (List.mem_filter.mp hy).2)
  rw [← hx, ← hy, hxy]

/-! ## The inner loop -/

theorem pack_cons (name : Bytes) (names : List Bytes) :
    pack (name :: names) = name ++ 0 :: pack names := by
  simp [pack, Lines.unlines]

theorem pack_append (names more : List Bytes) : pack (names ++ more) = pack names ++ pack more := by
  simp [pack, Lines.unlines]

theorem length_pack_cons (name : Bytes) (names : List Bytes) :
    (pack (name :: names)).length = (name.length + 1) + (pack names).length := by
  rw [pack_cons, List.length_append, List.length_cons]
  omega

theorem foundFrom_pack {names : List Bytes} (h : ∀ n ∈ names, 0 ∉ n) (pre rest : Bytes)
    (name : Bytes) {fuel : Nat} (hfuel : (pack names).length ≤ fuel) :
    foundFrom (pre ++ (pack names ++ rest)) (pre ++ pack names).length name fuel pre.length =
      decide (name ∈ names) := by
  induction names generalizing pre fuel with
  | nil =>
    have hend : ¬ pre.length < (pre ++ pack []).length := by simp [pack, Lines.unlines]
    cases fuel with
    | zero => rfl
    | succ fuel =>
      rw [foundFrom, if_neg hend]
      rfl
  | cons n names ih =>
    rw [length_pack_cons] at hfuel
    obtain ⟨fuel, rfl⟩ : ∃ k, fuel = k + 1 := ⟨fuel - 1, by omega⟩
    have hoffset : pre.length < (pre ++ pack (n :: names)).length := by
      rw [List.length_append, length_pack_cons]
      omega
    have hstr : strAt (pre ++ (pack (n :: names) ++ rest)) pre.length = n := by
      rw [pack_cons, List.append_assoc, List.cons_append]
      exact strAt_terminated (h n List.mem_cons_self)
    have hbuf : pre ++ (pack (n :: names) ++ rest) = (pre ++ n ++ [0]) ++ (pack names ++ rest) := by
      simp [pack_cons]
    have hsize : pre ++ pack (n :: names) = (pre ++ n ++ [0]) ++ pack names := by
      simp [pack_cons]
    rw [foundFrom, if_pos hoffset, hstr]
    by_cases hname : name = n
    · subst hname
      simp
    · have hcmp : strcmp n name ≠ .eq := fun heq => hname (strcmp_eq_eq.mp heq).symm
      have ih := ih (fun m hm => h m (List.mem_cons_of_mem n hm)) (pre ++ n ++ [0])
        (show (pack names).length ≤ fuel by omega)
      rw [length_behind] at ih
      rw [if_neg hcmp, hbuf, hsize, ih]
      simp [hname]

theorem found_pack {names : List Bytes} (h : ∀ n ∈ names, 0 ∉ n) (rest name : Bytes) :
    found (pack names ++ rest) (pack names).length name = decide (name ∈ names) :=
  foundFrom_pack h [] rest name le_rfl

/-! ## The outer loop -/

theorem storedNames_cons (pre d_name : Bytes) (ents : List Bytes) :
    storedNames pre (d_name :: ents) =
      if pre.isPrefixOf d_name then d_name.drop pre.length :: storedNames pre ents
      else storedNames pre ents := by
  rw [storedNames, List.filter_cons]
  split <;> rfl

/-- A name that does not belong to the path is passed over. -/
theorem listMetadata_skip {pre d_name : Bytes} (hpre : ¬ pre.isPrefixOf d_name)
    (existing : Option Nat) (ents : List Bytes) (s : ListState) :
    listMetadata pre existing (d_name :: ents) s = listMetadata pre existing ents s := by
  rw [listMetadata]
  simp only [hpre, Bool.not_false, if_true]

theorem listMetadata_query (pre buf : Bytes) (ents : List Bytes) (written : Nat) :
    listMetadata pre none ents ⟨buf, none, 0, written⟩ =
      ⟨written + (pack (storedNames pre ents)).length, none, buf⟩ := by
  induction ents generalizing written with
  | nil => rfl
  | cons d_name ents ih =>
    rw [storedNames_cons]
    by_cases hpre : pre.isPrefixOf d_name
    · rw [listMetadata]
      simp only [hpre, Bool.not_true, Bool.false_eq_true, if_false, if_true, Option.any_none,
        length_pack_cons]
      rw [ih]
      congr 1
      push_cast
      omega
    · rw [if_neg hpre, listMetadata_skip hpre]
      exact ih written

section Room

variable {rs : List Bytes} (hrs : ∀ n ∈ rs, 0 ∉ n) (pre rest : Bytes) (ents : List Bytes)
  (list size written : Nat)

include hrs

/-- A name that is in the list of the next library is passed over. -/
theorem listMetadata_found {name : Bytes} (hname : name ∈ rs) :
    listMetadata pre (some (pack rs).length) ((pre ++ name) :: ents)
        ⟨pack rs ++ rest, some list, size, written⟩ =
      listMetadata pre (some (pack rs).length) ents
        ⟨pack rs ++ rest, some list, size, written⟩ := by
  have hpre : pre.isPrefixOf (pre ++ name) :=
    List.isPrefixOf_iff_prefix.mpr (List.prefix_append pre name)
  rw [listMetadata]
  simp only [hpre, Bool.not_true, Bool.false_eq_true, if_false, List.drop_left, Option.any_some,
    found_pack hrs, hname, decide_true, if_true]

/-- A name that is not is copied, or does not fit. -/
theorem listMetadata_fresh {name : Bytes} (hname : name ∉ rs) :
    listMetadata pre (some (pack rs).length) ((pre ++ name) :: ents)
        ⟨pack rs ++ rest, some list, size, written⟩ =
      if size ≤ name.length then ⟨-1, some .ERANGE, pack rs ++ rest⟩
      else
        listMetadata pre (some (pack rs).length) ents ⟨strcpyAt (pack rs ++ rest) list name,
          some (list + (name.length + 1)), size - (name.length + 1),
          written + (name.length + 1)⟩ := by
  have hpre : pre.isPrefixOf (pre ++ name) :=
    List.isPrefixOf_iff_prefix.mpr (List.prefix_append pre name)
  rw [listMetadata]
  simp only [hpre, Bool.not_true, Bool.false_eq_true, if_false, List.drop_left, Option.any_some,
    found_pack hrs, hname, decide_false]

/-- A name that fits is copied behind the names copied so far. -/
theorem listMetadata_copied {name done room : Bytes} (hname : name ∉ rs)
    (hroom : room.length = name.length + 1) :
    listMetadata pre (some (pack rs).length) ((pre ++ name) :: ents)
        ⟨pack rs ++ (done ++ (room ++ rest)), some (pack rs ++ done).length,
          (room ++ rest).length, written⟩ =
      listMetadata pre (some (pack rs).length) ents
        ⟨pack rs ++ ((done ++ (name ++ [0])) ++ rest),
          some (pack rs ++ (done ++ (name ++ [0]))).length, rest.length,
          written + (name.length + 1)⟩ := by
  have hcopy : strcpyAt (pack rs ++ (done ++ (room ++ rest))) (pack rs ++ done).length name =
      pack rs ++ ((done ++ (name ++ [0])) ++ rest) := by
    rw [← List.append_assoc, strcpyAt_append _ _ _ _ hroom]
    simp
  have hlist : (pack rs ++ done).length + (name.length + 1) =
      (pack rs ++ (done ++ (name ++ [0]))).length := by
    simp only [List.length_append, List.length_singleton]
    omega
  have hsize : (room ++ rest).length - (name.length + 1) = rest.length := by
    rw [List.length_append]
    omega
  have hfit : ¬ (room ++ rest).length ≤ name.length := by
    rw [List.length_append]
    omega
  rw [listMetadata_fresh hrs pre _ _ _ _ _ hname, if_neg hfit, hcopy, hlist, hsize]

end Room

theorem fresh_cons_of_mem {rs : List Bytes} {name : Bytes} (h : name ∈ rs) (ds : List Bytes) :
    fresh rs (name :: ds) = fresh rs ds := by
  simp [fresh, h]

theorem fresh_cons_of_notMem {rs : List Bytes} {name : Bytes} (h : name ∉ rs) (ds : List Bytes) :
    fresh rs (name :: ds) = name :: fresh rs ds := by
  simp [fresh, h]

/-- Behind the list of the next library and the names copied so far, the loop copies the
names of the store that are not in the list, or fails when they do not fit. -/
theorem listMetadata_room {rs : List Bytes} (hrs : ∀ n ∈ rs, 0 ∉ n) (pre : Bytes)
    (ents : List Bytes) (done rest : Bytes) (written : Nat) :
    ((pack (fresh rs (storedNames pre ents))).length ≤ rest.length →
      listMetadata pre (some (pack rs).length) ents
          ⟨pack rs ++ (done ++ rest), some (pack rs ++ done).length, rest.length, written⟩ =
        ⟨written + (pack (fresh rs (storedNames pre ents))).length, none,
          pack rs ++ (done ++ (pack (fresh rs (storedNames pre ents)) ++
            rest.drop (pack (fresh rs (storedNames pre ents))).length))⟩) ∧
    (rest.length < (pack (fresh rs (storedNames pre ents))).length →
      (listMetadata pre (some (pack rs).length) ents
        ⟨pack rs ++ (done ++ rest), some (pack rs ++ done).length, rest.length, written⟩).ret = -1 ∧
      (listMetadata pre (some (pack rs).length) ents
        ⟨pack rs ++ (done ++ rest), some (pack rs ++ done).length, rest.length, written⟩).errno =
          some .ERANGE) := by
  induction ents generalizing done rest written with
  | nil => simp [storedNames, fresh, pack, Lines.unlines, listMetadata]
  | cons d_name ents ih =>
    by_cases hpre : pre.isPrefixOf d_name
    · obtain ⟨name, rfl⟩ := List.isPrefixOf_iff_prefix.mp hpre
      have hcons : storedNames pre ((pre ++ name) :: ents) = name :: storedNames pre ents := by
        rw [storedNames_cons, if_pos hpre, List.drop_left]
      rw [hcons]
      by_cases hname : name ∈ rs
      · rw [fresh_cons_of_mem hname, listMetadata_found hrs pre _ _ _ _ _ hname]
        exact ih done rest written
      · rw [fresh_cons_of_notMem hname, length_pack_cons]
        by_cases hfit : rest.length ≤ name.length
        · rw [listMetadata_fresh hrs pre _ _ _ _ _ hname, if_pos hfit]
          exact ⟨fun h => by omega, fun _ => ⟨rfl, rfl⟩⟩
        · obtain ⟨room, rest, hroom, rfl⟩ :
              ∃ room rest', room.length = name.length + 1 ∧ rest = room ++ rest' :=
            ⟨rest.take (name.length + 1), rest.drop (name.length + 1), by simp; omega, by simp⟩
          obtain ⟨hroom', hsmall⟩ := ih (done ++ (name ++ [0])) rest (written + (name.length + 1))
          rw [listMetadata_copied hrs pre _ _ _ hname hroom]
          constructor
          · intro h
            have hdrop : (room ++ rest).drop (name.length + 1 +
                (pack (fresh rs (storedNames pre ents))).length) =
                rest.drop (pack (fresh rs (storedNames pre ents))).length := by
              rw [← hroom, List.drop_length_add_append]
            rw [hroom' (by rw [List.length_append] at h; omega), hdrop, pack_cons]
            congr 1
            · push_cast
              omega
            · simp
          · intro h
            exact hsmall (by rw [List.length_append] at h; omega)
    · rw [storedNames_cons, if_neg hpre, listMetadata_skip hpre]
      exact ih done rest written

/-! ## The whole call -/

theorem realNames_nul (real : Option Names) : ∀ name ∈ realNames real, 0 ∉ name := by
  cases real with
  | none => exact List.forall_mem_nil _
  | some r => exact r.nul

theorem realNames_nodup (real : Option Names) : (realNames real).Nodup := by
  cases real with
  | none => exact List.nodup_nil
  | some r => exact r.nodup

theorem nodup_stored (c : ListCall) (db : Option Directory) : (c.stored db).Nodup := by
  unfold ListCall.stored
  split
  · exact nodup_storedNames _ (Directory.nodup _)
  · exact List.nodup_nil

theorem length_pack_fresh_le (rs ds : List Bytes) :
    (pack (fresh rs ds)).length ≤ (pack ds).length := by
  induction ds with
  | nil => exact le_rfl
  | cons name ds ih =>
    rw [length_pack_cons]
    by_cases h : name ∈ rs
    · rw [fresh_cons_of_mem h]
      omega
    · rw [fresh_cons_of_notMem h, length_pack_cons]
      omega

/-- The names that the protocol asks for, each once. -/
theorem nodup_append_fresh {rs ds : List Bytes} (hrs : rs.Nodup) (hds : ds.Nodup) :
    (rs ++ fresh rs ds).Nodup := by
  refine List.nodup_append.mpr ⟨hrs, hds.filter _, ?_⟩
  rintro a ha b hb rfl
  have hnot := (List.mem_filter.mp hb).2
  simp [ha] at hnot

theorem mem_append_fresh {rs ds : List Bytes} {name : Bytes} :
    name ∈ rs ++ fresh rs ds ↔ name ∈ rs ∨ name ∈ ds := by
  rw [fresh, List.mem_append, List.mem_filter]
  by_cases h : name ∈ rs <;> simp [h]

theorem run_real_room (c : ListCall) (real : Option Names) (db : Option (List Bytes))
    (hsize : c.size ≠ 0) (hroom : (pack (realNames real)).length ≤ c.size) :
    c.run (realListxattr real c.list) db =
      c.more (pack (realNames real)).length
        (pack (realNames real) ++ c.list.drop (pack (realNames real)).length) db := by
  cases real with
  | none => rfl
  | some r =>
    have hreal : realListxattr (some r) c.list =
        ⟨(pack r.names).length, none, pack r.names ++ c.list.drop (pack r.names).length⟩ :=
      (if_neg hsize).trans (if_neg (Nat.not_lt.mpr hroom))
    rw [ListCall.run, hreal, if_neg (by simp)]
    rfl

theorem run_real_query (c : ListCall) (real : Option Names) (db : Option (List Bytes))
    (hsize : c.size = 0) :
    c.run (realListxattr real c.list) db = c.more (pack (realNames real)).length c.list db := by
  cases real with
  | none => rfl
  | some r =>
    have hreal : realListxattr (some r) c.list = ⟨(pack r.names).length, none, c.list⟩ :=
      if_pos hsize
    rw [ListCall.run, hreal, if_neg (by simp)]
    rfl

theorem run_real_small (c : ListCall) (real : Option Names) (db : Option (List Bytes))
    (hsize : c.size ≠ 0) (hsmall : c.size < (pack (realNames real)).length) :
    c.run (realListxattr real c.list) db = ⟨-1, some .ERANGE, c.list⟩ := by
  cases real with
  | none => exact absurd hsmall (by simp [realNames, pack, Lines.unlines])
  | some r =>
    have hreal : realListxattr (some r) c.list = ⟨-1, some .ERANGE, c.list⟩ :=
      (if_neg hsize).trans (if_pos hsmall)
    rw [ListCall.run, hreal, if_pos (by simp)]

/-- With a query the lengths of both lists are added. -/
theorem more_query (c : ListCall) (n : Nat) (buf : Bytes) (db : Option Directory)
    (hsize : c.size = 0) :
    (c.more n buf (db.map Directory.ents)).ret = n + (pack (c.stored db)).length := by
  unfold ListCall.more ListCall.stored
  cases c.kernel.statOf c.target with
  | none => simp [pack, Lines.unlines]
  | some st =>
    cases db with
    | none => simp [pack, Lines.unlines]
    | some dir => simp [hsize, listMetadata_query]

/-- With a buffer that the list of the next library fits into, the names of the store are
added, or the result is one less than the length of the list. -/
theorem more_room (c : ListCall) {rs : List Bytes} (hrs : ∀ n ∈ rs, 0 ∉ n) {rest : Bytes}
    (db : Option Directory) (hsize : c.size ≠ 0) (hrest : (pack rs).length + rest.length = c.size) :
    ((pack (fresh rs (c.stored db))).length ≤ rest.length →
      (c.more (pack rs).length (pack rs ++ rest) (db.map Directory.ents)).ret =
        (pack rs).length + (pack (fresh rs (c.stored db))).length ∧
      ∃ behind, (c.more (pack rs).length (pack rs ++ rest) (db.map Directory.ents)).buf =
        pack rs ++ (pack (fresh rs (c.stored db)) ++ behind)) ∧
    (rest.length < (pack (fresh rs (c.stored db))).length →
      (c.more (pack rs).length (pack rs ++ rest) (db.map Directory.ents)).ret =
        (pack rs).length - 1 ∧
      (c.more (pack rs).length (pack rs ++ rest) (db.map Directory.ents)).errno =
        some .ERANGE) := by
  unfold ListCall.more ListCall.stored
  have hnone : pack (fresh rs []) = [] := rfl
  cases c.kernel.statOf c.target with
  | none => simp [hnone]
  | some st =>
    cases db with
    | none => simp [hnone]
    | some dir =>
      have hsub : c.size - (pack rs).length = rest.length := by omega
      have hlist := listMetadata_room hrs (metadataPrefix st) dir.ents [] rest 0
      rw [List.append_nil, List.nil_append] at hlist
      simp only [Option.map_some, hsize, if_false, hsub]
      constructor
      · intro h
        rw [hlist.1 h]
        refine ⟨?_, _, rfl⟩
        push_cast
        omega
      · intro h
        rw [(hlist.2 h).1, (hlist.2 h).2]
        exact ⟨rfl, rfl⟩

theorem length_pack_realNames (real : Option Names) (ds : List Bytes) :
    (pack (realNames real ++ fresh (realNames real) ds)).length =
      (pack (realNames real)).length + (pack (fresh (realNames real) ds)).length := by
  rw [pack_append, List.length_append]

theorem obeys_query (c : ListCall) (real : Option Names) (db : Option Directory)
    (hsize : c.size = 0) :
    Obeys (realNames real) (c.stored db) c.size
      (c.run (realListxattr real c.list) (db.map Directory.ents)) := by
  refine ⟨fun _ => ?_, fun h => absurd hsize h, fun h => absurd hsize h⟩
  have hle := length_pack_fresh_le (realNames real) (c.stored db)
  rw [run_real_query c real _ hsize, more_query c _ _ db hsize, length_pack_realNames]
  omega

theorem obeys_small (c : ListCall) (real : Option Names) (db : Option Directory)
    (hsize : c.size ≠ 0) (hsmall : c.size < (pack (realNames real)).length) :
    Obeys (realNames real) (c.stored db) c.size
      (c.run (realListxattr real c.list) (db.map Directory.ents)) := by
  have hlength := length_pack_realNames real (c.stored db)
  rw [run_real_small c real _ hsize hsmall]
  exact ⟨fun h => absurd h hsize, fun _ h => by omega, fun _ _ => ⟨rfl, rfl⟩⟩

/-- In a buffer with room for the names of the file itself, those of the store fit too, or
there is nothing in front of them. -/
theorem obeys_room_iff (c : ListCall) (real : Option Names) (db : Option Directory)
    (hsize : c.size ≠ 0) (hroom : (pack (realNames real)).length ≤ c.size) :
    Obeys (realNames real) (c.stored db) c.size
        (c.run (realListxattr real c.list) (db.map Directory.ents)) ↔
      realNames real = [] ∨
        (pack (realNames real ++ fresh (realNames real) (c.stored db))).length ≤ c.size := by
  have hlength := length_pack_realNames real (c.stored db)
  have hrest : (pack (realNames real)).length +
      (c.list.drop (pack (realNames real)).length).length = c.size := by
    rw [List.length_drop]
    unfold ListCall.size at hroom ⊢
    omega
  obtain ⟨hfull, herange⟩ := more_room c (realNames_nul real) db hsize hrest
  rw [run_real_room c real _ hsize hroom]
  by_cases hfit : (pack (realNames real ++ fresh (realNames real) (c.stored db))).length ≤ c.size
  · refine iff_of_true ?_ (.inr hfit)
    obtain ⟨hret, behind, hbuf⟩ := hfull (by omega)
    refine ⟨fun h => absurd h hsize, fun _ _ => ⟨?_, ?_⟩, fun _ h => by omega⟩
    · rw [hret, hlength]
      push_cast
      rfl
    · refine ⟨realNames real ++ fresh (realNames real) (c.stored db),
        nodup_append_fresh (realNames_nodup real) (nodup_stored c db),
        fun name => mem_append_fresh, ?_⟩
      rw [hbuf, ← List.append_assoc, ← pack_append, List.take_left]
  · obtain ⟨hret, herrno⟩ := herange (by omega)
    constructor
    · intro h
      left
      have hfail := (h.small hsize (by omega)).1
      rw [hret] at hfail
      cases hnames : realNames real with
      | nil => rfl
      | cons name names =>
        rw [hnames, length_pack_cons] at hfail
        omega
    · rintro (hnil | h)
      · refine ⟨fun h => absurd h hsize, fun _ h => absurd h hfit, fun _ _ => ⟨?_, herrno⟩⟩
        rw [hret, hnil]
        rfl
      · exact absurd h hfit

/-- **The size protocol.** The three listing functions keep it if and only if it is not just
the names of the store that do not fit: the file has no attributes of its own, or the buffer
is too small for these, or it is large enough for all. -/
theorem listxattr_obeys_iff (c : ListCall) (real : Option Names) (db : Option Directory) :
    Obeys (realNames real) (c.stored db) c.size
        (c.run (realListxattr real c.list) (db.map Directory.ents)) ↔
      realNames real = [] ∨ c.size < (pack (realNames real)).length ∨
        (pack (realNames real ++ fresh (realNames real) (c.stored db))).length ≤ c.size := by
  by_cases hsize : c.size = 0
  · refine iff_of_true (obeys_query c real db hsize) ?_
    cases realNames real with
    | nil => exact .inl rfl
    | cons name names =>
      right
      left
      rw [length_pack_cons]
      omega
  by_cases hsmall : c.size < (pack (realNames real)).length
  · exact iff_of_true (obeys_small c real db hsize hsmall) (.inr (.inl hsmall))
  · rw [obeys_room_iff c real db hsize (Nat.not_lt.mp hsmall), or_iff_right hsmall]

/-- A file with one attribute of its own and one in the store, and a buffer that has room
for the first name only: the result is not negative. -/
theorem listxattr_partial :
    ¬ ∀ (c : ListCall) (real : Option Names) (db : Option Directory),
      Obeys (realNames real) (c.stored db) c.size
        (c.run (realListxattr real c.list) (db.map Directory.ents)) := by
  intro h
  have hsmall := (h ⟨oneFile 0, .path (ascii "/usr/bin/ping"), List.replicate 10 0⟩
    (some ⟨[ascii "user.a"], by decide, by decide⟩)
    (some ⟨[metadataName ⟨0x801, 12⟩ (ascii "security.capability")], by decide⟩)).small
    (by decide) (by decide)
  exact absurd hsmall.1 (by decide)

end XfceLinux.Fakecap
