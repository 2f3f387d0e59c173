import Handout.Proofs.Tag.Untagged
import Mathlib.Data.List.Chain

/-!
# The one division into lines

A text can be divided in one way only into lines that are not empty, each a run of other characters with one
terminator behind it, such that no CR LF is torn apart (`splitLines_unique`).  A first line can be told from the text
behind it (`splitLines_cons`): its terminator goes as far as it can, which is not further than the line if the rest
does not begin with the line feed that a bare carriage return waits for.
-/

namespace Handout

variable {line body tail r t : Text} {lines : List Text}

/-- What can end a line. -/
def terminators : List Text := [[13, 10], [13], [10]]

/-- A line is a run of characters without CR and LF, and then one terminator or nothing. -/
structure LineParts (line body tail : Text) : Prop where
  eq_append : line = body ++ tail
  run : ∀ c ∈ body, c ≠ 13 ∧ c ≠ 10
  ends : tail = [] ∨ tail ∈ terminators

/-- The second line does not go on with the terminator of the first one. -/
def Apart (line next : Text) : Prop := line.getLast? = some 13 → next.head? ≠ some 10

/-- A text in lines: nothing is lost, only the last line may lack a terminator, and no CR LF is torn apart. -/
structure IsDivision (t : Text) (lines : List Text) : Prop where
  whole : lines.flatten = t
  ne_nil : ∀ line ∈ lines, line ≠ []
  parts : ∀ line ∈ lines, ∃ body tail, LineParts line body tail
  terminated : ∀ line ∈ lines.dropLast, ∃ body, ∃ tail ∈ terminators, LineParts line body tail
  apart : lines.IsChain Apart

/-! ### The parts of a line -/

private theorem mem_terminators : tail ∈ terminators ↔ tail = [13, 10] ∨ tail = [13] ∨ tail = [10] := by
  simp [terminators]

namespace LineParts

/-- Leaving out the line ends at its end leaves the run of a line. -/
theorem unique (h : LineParts line body tail) : lineBody line = body ∧ lineEnd line = tail := by
  rw [h.eq_append]
  refine lineBody_append (fun c hc => isLineEnd_eq_false (h.run c hc).2 (h.run c hc).1) ?_
  rcases h.ends with rfl | htail
  · exact List.mem_cons_self
  · rw [mem_terminators] at htail
    simp only [List.mem_cons, List.not_mem_nil, or_false]
    tauto

end LineParts

theorem IsLine.parts (h : IsLine line) : LineParts line (lineBody line) (lineEnd line) := by
  refine ⟨(lineBody_append_lineEnd line).symm, fun c hc => ?_, ?_⟩
  · have hrun := h.body c hc
    simp only [Text.isLineEnd, Bool.or_eq_false_iff, beq_eq_false_iff_ne] at hrun
    tauto
  · have htail := h.terminator
    simp only [List.mem_cons, List.not_mem_nil, or_false] at htail
    rw [mem_terminators]
    tauto

/-- No other character can follow a line feed in a line. -/
private theorem eq_of_head?_lineFeed (h : IsLine line) (hhead : line.head? = some 10) : line = [10] := by
  obtain ⟨heq, hrun, htail⟩ := h.parts
  generalize lineBody line = body at heq hrun
  generalize lineEnd line = tail at heq htail
  cases body with
  | nil =>
    rw [heq, List.nil_append] at hhead ⊢
    rcases htail with rfl | htail
    · cases hhead
    · rcases mem_terminators.1 htail with rfl | rfl | rfl
      · simp at hhead
      · simp at hhead
      · rfl
  | cons c body =>
    rw [heq, List.cons_append, List.head?_cons, Option.some_inj] at hhead
    exact absurd hhead (hrun c List.mem_cons_self).2

/-! ### There is a division -/

private theorem isChain_consLine {c : Nat} (hlines : ∀ l ∈ lines, IsLine l) (hapart : lines.IsChain Apart) :
    (consLine c lines).IsChain Apart := by
  unfold consLine
  split
  · exact hapart.cons fun _ _ hlast => absurd hlast (by decide)
  · split
    · split
      · exact hapart.tail.cons fun _ _ hlast => absurd hlast (by decide)
      · rename_i hnotfeed
        refine hapart.cons fun next hnext _ hhead => ?_
        obtain ⟨rest, rfl⟩ := List.head?_eq_some_iff.1 hnext
        exact hnotfeed rest (by rw [eq_of_head?_lineFeed (hlines next List.mem_cons_self) hhead])
    · rename_i h10 h13
      cases lines with
      | nil => exact List.isChain_singleton _
      | cons l rest =>
        obtain ⟨hnext, hrest⟩ := List.isChain_cons.1 hapart
        refine hrest.cons fun next hmem hlast => hnext next hmem ?_
        cases l with
        | nil => exact absurd (Option.some_inj.1 hlast) h13
        | cons d l => rwa [List.getLast?_cons_cons] at hlast

private theorem isChain_splitLines (t : Text) : (splitLines t).IsChain Apart := by
  induction t with
  | nil => exact List.isChain_nil
  | cons c r ih => exact isChain_consLine (fun l => isLine_of_mem_splitLines) ih

/-- A list without its last element, when each element but the last one has a property. -/
private theorem forall_mem_dropLast {p : Text → Prop} (h : lines.Pairwise fun a _ => p a) :
    ∀ line ∈ lines.dropLast, p line := by
  induction h with
  | nil => exact nofun
  | @cons line rest hline _ ih =>
    cases rest with
    | nil => exact nofun
    | cons next rest =>
      rw [List.dropLast_cons_cons]
      exact List.forall_mem_cons.2 ⟨hline next List.mem_cons_self, ih⟩

theorem isDivision_splitLines (t : Text) : IsDivision t (splitLines t) where
  whole := flatten_splitLines t
  ne_nil := fun _ hline => ne_nil_of_mem_splitLines hline
  parts := fun line hline => ⟨_, _, (isLine_of_mem_splitLines hline).parts⟩
  terminated := fun line hline => by
    have hparts := (isLine_of_mem_splitLines (List.mem_of_mem_dropLast hline)).parts
    have hend : lineEnd line ≠ [] := forall_mem_dropLast (pairwise_splitLines t) line hline
    exact ⟨_, _, hparts.ends.resolve_left hend, hparts⟩
  apart := isChain_splitLines t

/-! ### There is no other one -/

/-- A line is cut off from a text if its terminator does not go on behind it. -/
theorem splitLines_cons (h : LineParts line body tail) (hne : line ≠ []) (hlast : tail = [] → r = [])
    (hapart : Apart line r) : splitLines (line ++ r) = line :: splitLines r := by
  obtain ⟨rfl, hrun, htail⟩ := h
  induction body with
  | nil =>
    rcases htail with rfl | htail
    · exact absurd rfl hne
    · rcases mem_terminators.1 htail with rfl | rfl | rfl
      · rfl
      · show consLine 13 (splitLines r) = _
        unfold consLine
        rw [if_neg (by decide), if_pos rfl]
        split
        · rename_i rest hfeed
          -- a line feed would be taken into the terminator
          have hr : r = 10 :: rest.flatten := by rw [← flatten_splitLines r, hfeed]; rfl
          exact absurd (by rw [hr]; rfl) (hapart rfl)
        · rfl
      · rfl
  | cons c body ih =>
    obtain ⟨⟨h13, h10⟩, hrun⟩ := List.forall_mem_cons.1 hrun
    have hc := isLineEnd_eq_false h10 h13
    by_cases hempty : body ++ tail = []
    · obtain ⟨rfl, rfl⟩ := List.append_eq_nil_iff.1 hempty
      obtain rfl := hlast rfl
      show consLine c [] = _
      unfold consLine
      rw [if_neg h10, if_neg h13]
      rfl
    · have hapart' : Apart (body ++ tail) r := by
        intro hend
        refine hapart ?_
        obtain ⟨d, l, hdl⟩ := List.exists_cons_of_ne_nil hempty
        rw [List.cons_append, hdl, List.getLast?_cons_cons, ← hdl, hend]
      rw [List.cons_append, List.cons_append, splitLines, ih hrun hempty hapart', consLine_of_not_isLineEnd hc]

namespace IsDivision

/-- The lines behind the first one divide the rest of the text. -/
theorem behind (h : IsDivision t (line :: lines)) : IsDivision lines.flatten lines where
  whole := rfl
  ne_nil := fun l hl => h.ne_nil l (List.mem_cons_of_mem _ hl)
  parts := fun l hl => h.parts l (List.mem_cons_of_mem _ hl)
  terminated := fun l hl => by
    refine h.terminated l ?_
    cases lines with
    | nil => cases hl
    | cons next rest => exact List.mem_cons_of_mem _ hl
  apart := h.apart.tail

theorem eq_splitLines (h : IsDivision t lines) : lines = splitLines t := by
  induction lines generalizing t with
  | nil => rw [← h.whole]; rfl
  | cons line rest ih =>
    obtain ⟨body, tail, hparts⟩ := h.parts line List.mem_cons_self
    have hlast : tail = [] → rest.flatten = [] := by
      intro hnone
      cases rest with
      | nil => rfl
      | cons next rest =>
        have hfirst : line ∈ (line :: next :: rest).dropLast := by
          rw [List.dropLast_cons_cons]
          exact List.mem_cons_self
        obtain ⟨_, end', hend, hparts'⟩ := h.terminated line hfirst
        rw [← hparts'.unique.2, hparts.unique.2, hnone] at hend
        exact absurd hend (by decide)
    have hapart : Apart line rest.flatten := by
      intro hreturn
      cases rest with
      | nil => exact nofun
      | cons next rest =>
        have hnext := (List.isChain_cons.1 h.apart).1 next rfl hreturn
        obtain ⟨c, l, rfl⟩ := List.exists_cons_of_ne_nil (h.ne_nil next (by simp))
        exact hnext
    rw [← h.whole, List.flatten_cons, splitLines_cons hparts (h.ne_nil line List.mem_cons_self) hlast hapart,
      ← ih h.behind]

end IsDivision

/-- A text has exactly one division into lines, the one that `splitLines` finds, and leaving out the line ends at the
end of one of these lines takes its terminator off and nothing else. -/
theorem splitLines_unique (t : Text) :
    (∀ lines, lines = splitLines t ↔ IsDivision t lines) ∧
    ∀ line ∈ splitLines t, LineParts line (lineBody line) (lineEnd line) ∧
      ∀ body tail, LineParts line body tail → lineBody line = body ∧ lineEnd line = tail := by
  refine ⟨fun lines => ⟨?_, IsDivision.eq_splitLines⟩, fun line hline => ?_⟩
  · rintro rfl
    exact isDivision_splitLines t
  · exact ⟨(isLine_of_mem_splitLines hline).parts, fun body tail => LineParts.unique⟩

/-- Terminators of all kinds in a row, and a last line without one. -/
def sampleBreaks : Text := [97, 13, 13, 10, 10, 13, 98]

/-- In the sample each carriage return is a terminator, but the one that a line feed follows; a division that parts
these two is none. -/
theorem sampleBreaks_lines :
    IsDivision sampleBreaks [[97, 13], [13, 10], [10], [13], [98]] ∧
    ¬ IsDivision sampleBreaks [[97, 13], [13], [10], [10], [13], [98]] ∧
    LineParts [13, 10] (lineBody [13, 10]) (lineEnd [13, 10]) := by
  obtain ⟨hunique, hparts⟩ := splitLines_unique sampleBreaks
  refine ⟨(hunique _).1 (by decide), fun htorn => ?_, (hparts [13, 10] (by decide)).1⟩
  exact absurd ((hunique _).2 htorn) (by decide)

end Handout
