import Handout.Proofs.Archive.Entries
import Handout.Proofs.Archive.Extract

/-!
# Names in archives

An entry is named by the names that lead to it, joined by slashes, and in a zip archive a directory has a slash at
the end.  When such a name is read as the path of a member, the same names come out (`memberPath_entryName`).
-/

namespace Handout

/-- A name that stays one name when it is read from an archive. -/
structure IsPortable (c : String) : Prop extends IsName c where
  noBackslash : '\\' ∉ c.toList

namespace Archive

variable {archive name : Path} {parts : List String} {format : Format} {node : Node}

/-- The name of the entry for a node under a relative path. -/
def entryName (format : Format) (name : Path) (node : Node) : String :=
  if format = .zip ∧ node = .directory then name.toString ++ "/" else name.toString

/-- The entry for a node under a relative path without `..`. -/
theorem entryOf_relative (hrelative : name.anchor = .relative) (hp : ∀ c ∈ name.parts, c ≠ "..") (format : Format)
    (node : Node) : entryOf format name node = .ok ⟨entryName format name node, node⟩ := by
  have habsolute : name.isAbsolute = false := by
    unfold Path.isAbsolute
    rw [hrelative]
    rfl
  cases format with
  | tar =>
    unfold entryOf tarName entryName
    simp [habsolute]
  | zip =>
    have hzip : zipName? name = some name.toString := by
      unfold zipName? Path.toString
      rw [Path.normal_of_plain hp]
      dsimp only
      rw [habsolute, hrelative]
      by_cases hparts : name.parts = []
      · have hhere : name = Path.here := by
          obtain ⟨anchor, parts⟩ := name
          simp only at hrelative hparts
          rw [hrelative, hparts]
          rfl
        simp [hhere, Path.here]
      · have hhere : name ≠ Path.here := fun he => hparts (by rw [he]; rfl)
        simp [hparts, hhere, Anchor.text]
    unfold entryOf entryName
    dsimp only
    rw [hzip]
    by_cases hd : node = .directory <;> simp [hd]

/-- The names that lead to an entry are read from its name. -/
theorem memberPath_entryName (hrelative : name.anchor = .relative) (hp : ∀ c ∈ name.parts, IsPortable c) (archive : Path)
    (format : Format) (node : Node) :
    memberPath archive (entryName format name node) = .ok (if name.parts = [] then none else some name) := by
  obtain ⟨hread, hreadSlash⟩ := Path.ofString_toString hrelative fun c hc => (hp c hc).toIsName
  have hchars : ∀ x ∈ name.toString.toList, x ≠ '\\' := by
    rintro x hx rfl
    rcases Path.mem_toString hrelative hx with h | h | ⟨c, hc, h⟩
    · cases h
    · cases h
    · exact (hp c hc).noBackslash h
  have hsame : ∀ text : String, (∀ x ∈ text.toList, x ≠ '\\') →
      String.ofList (text.toList.map fun c => if c = '\\' then '/' else c) = text := by
    intro text h
    have hmap : text.toList.map (fun c => if c = '\\' then '/' else c) = text.toList.map id :=
      List.map_congr_left fun x hx => if_neg (h x hx)
    rw [hmap, List.map_id, String.ofList_toList]
  have htext : ∀ text : String, (∀ x ∈ text.toList, x ≠ '\\') → Path.ofString text = name →
      memberPath archive text = .ok (if name.parts = [] then none else some name) := by
    intro text h hreads
    have habsolute : name.isAbsolute = false := by
      unfold Path.isAbsolute
      rw [hrelative]
      rfl
    have hup : name.parts.contains ".." = false :=
      Bool.eq_false_iff.2 fun hup => (hp _ (List.contains_iff_mem.1 hup)).plain.2 rfl
    unfold memberPath
    rw [hsame text h, hreads]
    dsimp only
    rw [habsolute, hup]
    simp
  unfold entryName
  split
  · refine htext _ (fun x hx => ?_) hreadSlash
    rw [String.toList_append] at hx
    rcases List.mem_append.1 hx with hx | hx
    · exact hchars x hx
    · rw [List.mem_singleton.1 hx]
      decide
  · exact htext _ hchars hread

end Archive

end Handout
