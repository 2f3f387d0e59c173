import Handout.Proofs.Tag.Grammar
import Handout.Proofs.Tag.RoundTrip

/-!
# Solutions do not show in stubs

A stub depends only on what is left of a file when the lines in its solution blocks are taken out
(`withoutBlocks`).  Taking out lines that are no directives leaves the tags before every other line as they are
(`tagsOf_withoutBlocks`), so the lines that are left are tagged as before, and those that are taken out are of a kind
that the output does not keep (`keptText_withoutBlocks`).  Hence two files that are the same but for their solutions
have the same stub, and two that are the same but for solutions and hidden regions have the same stub for review
(`render_of_withoutBlocks`).
-/

namespace Handout

/-- Whether a line is no directive and stands in a block of one of some kinds, after the given tags. -/
def isInBlock (styles : List CommentStyle) (blocks : List Block) (before : List Tag) (line : Text) : Bool :=
  (tagOf? styles line).isNone && (Tag.enclosing before).any blocks.contains

/-- The lines of a file without those that stand in blocks of certain kinds; directives stay. -/
def withoutBlocks (styles : List CommentStyle) (blocks : List Block) (lines : List Text) : List Text :=
  (lines.mapIdx fun i line => if isInBlock styles blocks (tagsOf styles (lines.take i)) line then [] else [line]).flatten

/-- The text that an output with certain kinds of lines has in the place of some lines. -/
def keptText (keep : SpanFilter) (ls : List TaggedLine) : Text :=
  ((ls.filter fun l => keep l.kind).map TaggedLine.text).flatten

variable {styles : List CommentStyle} {blocks : List Block} {keep : SpanFilter} {before lines : List Text} {line : Text}

private theorem withoutBlocks_concat (before : List Text) (line : Text) :
    withoutBlocks styles blocks (before ++ [line]) = withoutBlocks styles blocks before ++
      if isInBlock styles blocks (tagsOf styles before) line then [] else [line] := by
  unfold withoutBlocks
  rw [List.mapIdx_concat, List.flatten_append]
  congr 1
  · congr 1
    apply List.mapIdx_eq_mapIdx_iff.2
    intro i hi
    rw [List.take_append_of_le_length (Nat.le_of_lt hi)]
  · simp

theorem keptText_append (ls ls' : List TaggedLine) :
    keptText keep (ls ++ ls') = keptText keep ls ++ keptText keep ls' := by
  simp [keptText]

/-- The lines that are taken out have no tags. -/
theorem tagsOf_withoutBlocks (lines : List Text) :
    tagsOf styles (withoutBlocks styles blocks lines) = tagsOf styles lines := by
  induction lines using List.reverseRecOn with
  | nil => rfl
  | append_singleton before line ih =>
    rw [withoutBlocks_concat, tagsOf_append, ih]
    split
    · rename_i h
      rw [isInBlock, Bool.and_eq_true, Option.isNone_iff_eq_none] at h
      rw [tagsOf_concat_of_none h.1]
      exact List.append_nil _
    · rw [← tagsOf_append]

/-- A line in a block has the kind of the block. -/
private theorem kind_tagLine (hblocks : ∀ b ∈ blocks, keep b.kind = false) {ts : List Tag}
    (h : isInBlock styles blocks ts line = true) : keep (tagLine styles ts line).kind = false := by
  rw [isInBlock, Bool.and_eq_true, Option.isNone_iff_eq_none, tagOf?, Option.map_eq_none_iff,
    Option.any_eq_true] at h
  obtain ⟨hd, b, hb, hmem⟩ := h
  rw [tagLine, hd, hb]
  exact hblocks b (List.contains_iff_mem.1 hmem)

/-- An output that keeps no lines in blocks of certain kinds does not depend on them. -/
theorem keptText_withoutBlocks (hblocks : ∀ b ∈ blocks, keep b.kind = false) (lines : List Text) :
    keptText keep (tagging styles (withoutBlocks styles blocks lines)) = keptText keep (tagging styles lines) := by
  induction lines using List.reverseRecOn with
  | nil => rfl
  | append_singleton before line ih =>
    rw [tagging_concat, keptText_append, withoutBlocks_concat]
    split
    · rename_i h
      rw [List.append_nil, ih]
      simp [keptText, kind_tagLine hblocks h]
    · rw [tagging_concat, keptText_append, ih, tagsOf_withoutBlocks]

theorem render_spans (e : Encoding) (ls : List TaggedLine) :
    render keep (ls.map (TaggedLine.span e)) = e.encode (keptText keep ls) := by
  rw [render, keptText, Encoding.encode_flatten, List.filter_map, List.flatMap_map, List.flatMap_map]
  rfl

/-- The output for a file without fault. -/
theorem render_parseTags {extension : String} {styles : List CommentStyle}
    (hext : CommentStyle.forExtension? extension = some styles) {data : Bytes}
    (h : (parseTags extension data).fault = none) :
    render keep (parseTags extension data).spans = render keep (plainSpan (decode data).mark) ++
      (decode data).encoding.encode (keptText keep (tagging styles (splitLines (decode data).text))) := by
  have hparse : parseTags extension data = ⟨plainSpan (decode data).mark ++
      (tagLines styles (splitLines (decode data).text)).1.map (TaggedLine.span (decode data).encoding),
      (tagLines styles (splitLines (decode data).text)).2⟩ := by
    simp only [parseTags, hext]
  rw [hparse] at h ⊢
  rw [← tagging_of_none h, ← render_spans]
  simp [render]

/-- Where no comments are known, no line is a directive. -/
theorem tagsOf_nil (lines : List Text) : tagsOf [] lines = [] := List.filterMap_eq_nil_iff.2 fun _ _ => rfl

/-- Without directives all lines stay. -/
private theorem withoutBlocks_nil (lines : List Text) : withoutBlocks [] blocks lines = lines := by
  induction lines using List.reverseRecOn with
  | nil => rfl
  | append_singleton before line ih =>
    rw [withoutBlocks_concat, ih, tagsOf_nil]
    rfl

/-- A file is known by its mark, its encoding and its lines. -/
theorem eq_of_splitLines {data data' : Bytes} (hmark : (decode data).mark = (decode data').mark)
    (hencoding : (decode data).encoding = (decode data').encoding)
    (hlines : splitLines (decode data).text = splitLines (decode data').text) : data = data' := by
  have htext : (decode data).text = (decode data').text := by
    rw [← flatten_splitLines (decode data).text, hlines, flatten_splitLines]
  rw [← mark_append_encode data, ← mark_append_encode data', hmark, hencoding, htext]

/-- Two files that are the same but for lines that an output does not keep have the same output. -/
private theorem render_eq {extension : String} {data data' : Bytes} (hblocks : ∀ b ∈ blocks, keep b.kind = false)
    (hmark : (decode data).mark = (decode data').mark) (hencoding : (decode data).encoding = (decode data').encoding)
    (hdata : (parseTags extension data).fault = none) (hdata' : (parseTags extension data').fault = none)
    (h : withoutBlocks ((CommentStyle.forExtension? extension).getD []) blocks (splitLines (decode data).text) =
      withoutBlocks ((CommentStyle.forExtension? extension).getD []) blocks (splitLines (decode data').text)) :
    render keep (parseTags extension data).spans = render keep (parseTags extension data').spans := by
  cases hext : CommentStyle.forExtension? extension with
  | none =>
    -- no line is left out, so both files are the same
    rw [hext, Option.getD_none, withoutBlocks_nil, withoutBlocks_nil] at h
    rw [eq_of_splitLines hmark hencoding h]
  | some styles =>
    rw [hext, Option.getD_some] at h
    rw [render_parseTags hext hdata, render_parseTags hext hdata', hmark, hencoding, ← keptText_withoutBlocks hblocks,
      h, keptText_withoutBlocks hblocks]

/-- Two files with the same mark and encoding that are the same but for the lines in their solution blocks have the
same stub and the same stub for review; for the latter they need only be the same but for solutions and hidden
regions. -/
theorem render_of_withoutBlocks (extension : String) (data data' : Bytes)
    (hmark : (decode data).mark = (decode data').mark) (hencoding : (decode data).encoding = (decode data').encoding)
    (hdata : (parseTags extension data).fault = none) (hdata' : (parseTags extension data').fault = none) :
    let styles := (CommentStyle.forExtension? extension).getD []
    let lines := splitLines (decode data).text
    let lines' := splitLines (decode data').text
    (withoutBlocks styles [.solution] lines = withoutBlocks styles [.solution] lines' →
      render .stub (parseTags extension data).spans = render .stub (parseTags extension data').spans ∧
      render .review (parseTags extension data).spans = render .review (parseTags extension data').spans) ∧
    (withoutBlocks styles [.solution, .hidden] lines = withoutBlocks styles [.solution, .hidden] lines' →
      render .review (parseTags extension data).spans = render .review (parseTags extension data').spans) := by
  refine ⟨fun h => ⟨?_, ?_⟩, fun h => ?_⟩
  · exact render_eq (by decide) hmark hencoding hdata hdata' h
  · exact render_eq (by decide) hmark hencoding hdata hdata' h
  · exact render_eq (by decide) hmark hencoding hdata hdata' h

/-- A file with a solution and a stub, and a hidden region behind them. -/
def sampleExercise (solution hidden : String) : Bytes :=
  Bytes.ofString ("//BEGIN SOLUTION\n" ++ solution ++ "//END SOLUTION\n//STUB:0\n//BEGIN HIDDEN\n" ++ hidden
    ++ "//END HIDDEN\n")

/-- However long the solution is, the stub is the same; the review stub does not show the hidden region either. -/
theorem render_sampleExercise :
    render .stub (parseTags "java" (sampleExercise "a\n" "t\n")).spans =
      render .stub (parseTags "java" (sampleExercise "b\nc\n" "t\n")).spans ∧
    render .review (parseTags "java" (sampleExercise "a\n" "t\n")).spans =
      render .review (parseTags "java" (sampleExercise "" "u\nv\n")).spans := by
  refine ⟨((render_of_withoutBlocks "java" _ _ ?_ ?_ ?_ ?_).1 ?_).1, (render_of_withoutBlocks "java" _ _ ?_ ?_ ?_ ?_).2 ?_⟩
  all_goals decide +kernel

end Handout
