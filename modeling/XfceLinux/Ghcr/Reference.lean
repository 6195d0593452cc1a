import XfceLinux.Ghcr.Stream
import XfceLinux.Lib.Lines

/-!
# References of images

A reference is written `registry/path[:tag][@digest]`. The registry may carry a port, so that
`:` stands for three different things; `main` finds the repository from the right, the digest
first, and looks for a tag only behind the last `/`. Every reference is taken apart at its
own places (`parseRef_text`), and what is asked for is a blob of its repository (`blobUrl_eq`).
-/

namespace XfceLinux.Ghcr

open Lib Lib.Text

/-- A text that holds none of the characters of `cs`. -/
abbrev Free (cs : List Char) := { s : Str // ∀ c ∈ cs, c ∉ s }

/-- The digest of a reference, as `sha256:…`. -/
structure RefDigest where
  algorithm : Free ['/', '@']
  hex : Free ['/', '@']

structure Reference where
  registry : Free ['/']
  components : List (Free ['/', ':', '@'])
  components_ne : components ≠ []
  tag : Option (Free ['/', ':', '@'])
  digest : Option RefDigest

/-! ## How a reference is written -/

def RefDigest.text (d : RefDigest) : Str := d.algorithm ++ ':' :: d.hex

namespace Reference

/-- The path of the repository. -/
def path (r : Reference) : Str := ['/'].intercalate (r.components.map (·.val))

def tagText (r : Reference) : Str := r.tag.elim [] fun t => ':' :: t.val

def digestText (r : Reference) : Str := r.digest.elim [] fun d => '@' :: d.text

def text (r : Reference) : Str := r.registry ++ '/' :: (r.path ++ r.tagText ++ r.digestText)

/-- The last component stands behind those that it lies below. -/
theorem exists_path_eq (r : Reference) :
    ∃ (parents : List (Free ['/', ':', '@'])) (name : Free ['/', ':', '@']),
      r.path = Lines.unlines '/' (parents.map (·.val)) ++ name := by
  obtain ⟨parents, name, hcomponents⟩ :=
    (List.eq_nil_or_concat' r.components).resolve_left r.components_ne
  refine ⟨parents, name, ?_⟩
  rw [path, hcomponents, List.map_append, List.map_singleton, Lines.intercalate_append_singleton]

theorem notMem_path {c : Char} (hc : c ∈ [':', '@']) (r : Reference) : c ∉ r.path := by
  obtain ⟨parents, name, hpath⟩ := r.exists_path_eq
  have hfree : c ∈ ['/', ':', '@'] := List.mem_cons_of_mem _ hc
  have hslash : c ≠ '/' := by
    rintro rfl
    simp at hc
  rw [hpath, List.mem_append, Lines.unlines, List.mem_flatMap]
  rintro (⟨l, hl, hmem⟩ | hmem)
  · obtain ⟨component, -, rfl⟩ := List.mem_map.mp hl
    rcases List.mem_append.mp hmem with hmem | hmem
    · exact component.property c hfree hmem
    · exact hslash (List.mem_singleton.mp hmem)
  · exact name.property c hfree hmem

theorem notMem_tagText {c : Char} (hc : c ∈ ['/', '@']) (r : Reference) : c ∉ r.tagText := by
  have hcolon : c ≠ ':' := by
    rintro rfl
    simp at hc
  have hfree : c ∈ ['/', ':', '@'] := by
    simp only [List.mem_cons, List.not_mem_nil, or_false] at hc ⊢
    exact hc.imp_right .inr
  rw [tagText]
  cases r.tag with
  | none => exact List.not_mem_nil
  | some tag => exact List.not_mem_cons_of_ne_of_not_mem hcolon (tag.property c hfree)

end Reference

theorem RefDigest.at_notMem_text (d : RefDigest) : '@' ∉ d.text := by
  have halgorithm := d.algorithm.property '@' (by simp)
  have hhex := d.hex.property '@' (by simp)
  simp [RefDigest.text, halgorithm, hhex]

/-! ## Taking a reference apart -/

theorem rsplitLast_unlines_append {t : Str} (ht : '/' ∉ t) (parents : List Str) :
    rsplitLast '/' (Lines.unlines '/' parents ++ t) = t := by
  rcases List.eq_nil_or_concat' parents with rfl | ⟨ls, l, rfl⟩
  · exact rsplitLast_of_notMem ht
  · have hsplit : Lines.unlines '/' (ls ++ [l]) ++ t =
        (Lines.unlines '/' ls ++ l) ++ '/' :: t := by
      simp [Lines.unlines]
    rw [hsplit, rsplitLast_append_cons ht]

namespace Reference

/-- `rest.rsplit("@", 1)[0]` is the reference without its digest. -/
theorem rsplitHead_digest (r : Reference) :
    rsplitHead '@' (r.path ++ r.tagText ++ r.digestText) = r.path ++ r.tagText := by
  have hrepo : '@' ∉ r.path ++ r.tagText := by
    rw [List.mem_append]
    exact not_or.mpr ⟨r.notMem_path (by simp), r.notMem_tagText (by simp)⟩
  rw [digestText]
  cases r.digest with
  | none => exact (congrArg _ (List.append_nil _)).trans (rsplitHead_of_notMem hrepo)
  | some d => exact rsplitHead_append_cons d.at_notMem_text _

/-- The text behind the last `/` holds a `:` if there is a tag, whatever the registry holds. -/
theorem colon_mem_rsplitLast (r : Reference) :
    ':' ∈ rsplitLast '/' (r.path ++ r.tagText) ↔ r.tag ≠ none := by
  obtain ⟨parents, name, hpath⟩ := r.exists_path_eq
  have hname : '/' ∉ name.val ++ r.tagText := by
    rw [List.mem_append]
    exact not_or.mpr ⟨name.property '/' (by simp), r.notMem_tagText (by simp)⟩
  rw [hpath, List.append_assoc, rsplitLast_unlines_append hname, List.mem_append,
    or_iff_right (name.property ':' (by simp)), tagText]
  cases r.tag <;> simp

/-- `repo.rsplit(":", 1)[0]` is the path, where there is a tag. -/
theorem rsplitHead_tag (r : Reference) :
    (if ':' ∈ rsplitLast '/' (r.path ++ r.tagText) then rsplitHead ':' (r.path ++ r.tagText)
      else r.path ++ r.tagText) = r.path := by
  simp only [r.colon_mem_rsplitLast]
  rw [tagText]
  cases htag : r.tag with
  | none => simp
  | some tag =>
    rw [if_pos (Option.some_ne_none tag)]
    exact rsplitHead_append_cons (tag.property ':' (by simp)) _

/-- **Every form** of a reference is taken apart into its registry and its path. -/
theorem parseRef_text (r : Reference) : parseRef r.text = (r.registry.val, r.path) := by
  have hslash : '/' ∉ r.registry.val := r.registry.property '/' (by simp)
  rw [parseRef, text, partition_append hslash]
  simp only [r.rsplitHead_digest, r.rsplitHead_tag]

example : (Reference.mk ⟨"localhost:5000".toList, by simp⟩
    [⟨"tuna-os".toList, by simp⟩, ⟨"xfce-linux".toList, by simp⟩] (by simp)
    (some ⟨"latest".toList, by simp⟩)
    (some ⟨⟨"sha256".toList, by simp⟩, ⟨"00ff".toList, by simp⟩⟩)).text =
      "localhost:5000/tuna-os/xfce-linux:latest@sha256:00ff".toList := by decide

theorem blobUrl_eq (r : Reference) (digest : Str) :
    blobUrl r.text digest = "https://".toList ++ r.registry.val ++ "/v2/".toList ++ r.path ++
      "/blobs/".toList ++ digest := by
  unfold blobUrl
  rw [r.parseRef_text]

/-- The URL gives the registry and the path back. -/
theorem blobUrl_inj (r r' : Reference) (digest : Str) :
    blobUrl r.text digest = blobUrl r'.text digest ↔
      r.registry.val = r'.registry.val ∧ r.path = r'.path := by
  rw [blobUrl_eq, blobUrl_eq]
  constructor
  · intro h
    have hslash (q : Reference) : '/' ∉ q.registry.val := q.registry.property '/' (by simp)
    have hrest : r.registry.val ++ '/' :: ("v2/".toList ++ r.path ++ "/blobs/".toList ++ digest) =
        r'.registry.val ++ '/' :: ("v2/".toList ++ r'.path ++ "/blobs/".toList ++ digest) := by
      simpa using h
    obtain ⟨hregistry, hpath⟩ := Lines.append_cons_inj (hslash r) (hslash r') hrest
    exact ⟨hregistry, by simpa using hpath⟩
  · rintro ⟨hregistry, hpath⟩
    rw [hregistry, hpath]

end Reference

/-- **Every blob request** of a run goes to the registry and the repository of the reference,
without its tag and its digest, and to no other. -/
theorem request_reference (env : Env) (r : Reference) (s : St) :
    (request { env with ref := r.text } s).url =
        "https://".toList ++ r.registry.val ++ "/v2/".toList ++ r.path ++ "/blobs/".toList ++
          env.digest ∧
      ∀ r' : Reference, blobUrl r'.text env.digest = (request { env with ref := r.text } s).url ↔
        r'.registry.val = r.registry.val ∧ r'.path = r.path :=
  ⟨r.blobUrl_eq env.digest, fun r' => r'.blobUrl_inj r env.digest⟩

end XfceLinux.Ghcr
