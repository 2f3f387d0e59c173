import Handout.Proofs.Tag.Directive
import Handout.Proofs.Tag.Redaction
import Handout.Proofs.Tag.RoundTrip
import Mathlib.Algebra.Order.BigOperators.Group.List
import Mathlib.Algebra.Order.Group.Nat

/-!
# Files without tags

The spans of a file put together, each with its text, are what the file has without any filter.  A line that is no
directive is its own text.  A directive has a shorter text in every encoding: none at all, or the parts of the line
that are left when the beginning of the comment is taken out (`length_replace_lt`), however much the replacement looks
like the line.  So the texts make up the file exactly if no line is a directive (`text_parseTags`).
-/

namespace Handout

open Encoding

variable {styles : List CommentStyle} {line : Text} {e : Encoding}

/-- The output of a file that keeps all its spans. -/
def Tagged.text (t : Tagged) : Bytes := t.spans.flatMap Span.text

/-! ### Lengths -/

namespace Encoding

private theorem encodeChar_ne_nil (e : Encoding) (c : Nat) : e.encodeChar c ≠ [] := by
  cases e with
  | latin1 => exact List.cons_ne_nil _ _
  | utf16 order =>
    show (units16 c).flatMap (unit16 order) ≠ []
    unfold units16
    split <;> cases order <;> exact List.cons_ne_nil _ _
  | utf32 order => cases order <;> exact List.cons_ne_nil _ _

theorem length_encode_append (e : Encoding) (t u : Text) :
    (e.encode (t ++ u)).length = (e.encode t).length + (e.encode u).length := by
  rw [encode_append, List.length_append]

/-- Every character takes some bytes. -/
theorem length_encode_pos {t : Text} (h : t ≠ []) (e : Encoding) : 0 < (e.encode t).length := by
  cases t with
  | nil => exact absurd rfl h
  | cons c t =>
    rw [encode_cons, List.length_append]
    exact Nat.add_pos_left (List.length_pos_iff.2 (encodeChar_ne_nil e c)) _

/-- A piece of a text takes no more bytes than the text. -/
theorem length_encode_le {t u : Text} (h : u <:+: t) (e : Encoding) : (e.encode u).length ≤ (e.encode t).length := by
  obtain ⟨before, after, rfl⟩ := h
  rw [length_encode_append, length_encode_append]
  omega

end Encoding

/-- A line has at least its terminator. -/
theorem ne_nil_of_mem_splitLines {t : Text} (h : line ∈ splitLines t) : line ≠ [] := by
  induction t generalizing line with
  | nil => cases h
  | cons c r ih =>
    rw [splitLines] at h
    unfold consLine at h
    grind

/-! ### Directives -/

/-- What takes the place of a directive takes fewer bytes than its line, in every encoding. -/
theorem Directive.length_replace_lt {d : Directive} (h : readAny? styles (lineBody line) = some d) (hline : line ≠ [])
    (e : Encoding) : (e.encode (d.replace line)).length < (e.encode line).length := by
  cases d with
  | keyword indent k written => exact length_encode_pos hline e
  | stub indent replacement =>
    obtain ⟨comment, rest, hbody, hcomment, -, hpart⟩ := comment_of_readAny? h
    have hpos := length_encode_pos hcomment e
    have hle := length_encode_le hpart e
    calc (e.encode (indent ++ replacement ++ lineEnd line)).length
        = (e.encode indent).length + (e.encode replacement).length + (e.encode (lineEnd line)).length := by
          rw [length_encode_append, length_encode_append]
      _ < (e.encode indent).length + ((e.encode comment).length + (e.encode rest).length) +
            (e.encode (lineEnd line)).length := by omega
      _ = (e.encode (lineBody line ++ lineEnd line)).length := by
          rw [hbody, length_encode_append, length_encode_append, length_encode_append]
      _ = (e.encode line).length := by rw [lineBody_append_lineEnd]

/-- The text of a line: the line itself, or what takes its place. -/
def lineText (styles : List CommentStyle) (line : Text) : Text :=
  match Directive.readAny? styles (lineBody line) with
  | none => line
  | some d => d.replace line

theorem lineText_of_none (h : Directive.readAny? styles (lineBody line) = none) : lineText styles line = line := by
  rw [lineText, h]

theorem length_lineText_lt (h : Directive.readAny? styles (lineBody line) ≠ none) (hline : line ≠ []) (e : Encoding) :
    (e.encode (lineText styles line)).length < (e.encode line).length := by
  obtain ⟨d, hd⟩ := Option.ne_none_iff_exists'.1 h
  rw [lineText, hd]
  exact Directive.length_replace_lt hd hline e

theorem length_lineText_le (styles : List CommentStyle) (hline : line ≠ []) (e : Encoding) :
    (e.encode (lineText styles line)).length ≤ (e.encode line).length := by
  by_cases h : Directive.readAny? styles (lineBody line) = none
  · rw [lineText_of_none h]
  · exact Nat.le_of_lt (length_lineText_lt h hline e)

private theorem texts_tagging (styles : List CommentStyle) (lines : List Text) :
    (tagging styles lines).map TaggedLine.text = lines.map (lineText styles) := by
  induction lines using List.reverseRecOn with
  | nil => rfl
  | append_singleton before line ih =>
    rw [tagging_concat, List.map_append, ih, List.map_append, List.map_singleton, List.map_singleton]
    congr 2
    unfold tagLine lineText
    cases Directive.readAny? styles (lineBody line) with
    | some d => rfl
    | none => cases Tag.enclosing (tagsOf styles before) <;> rfl

/-- A file is its mark and its lines. -/
private theorem eq_flatMap_encode (data : Bytes) :
    data = (decode data).mark ++ (splitLines (decode data).text).flatMap (decode data).encoding.encode := by
  rw [← encode_flatten, flatten_splitLines, mark_append_encode]

/-- The texts of all spans are those of the mark and of the lines. -/
private theorem text_eq_flatMap {extension : String} {data : Bytes} (hfault : (parseTags extension data).fault = none) :
    (parseTags extension data).text = (decode data).mark ++ (splitLines (decode data).text).flatMap fun line =>
      (decode data).encoding.encode (lineText ((CommentStyle.forExtension? extension).getD []) line) := by
  have hplain : ∀ data : Bytes, (plainSpan data).flatMap Span.text = data := by
    intro data
    unfold plainSpan
    split
    · rename_i hempty
      rw [List.isEmpty_iff.1 hempty]
      rfl
    · simp
  cases hext : CommentStyle.forExtension? extension with
  | none =>
    have hparse : parseTags extension data = ⟨plainSpan data, none⟩ := by
      rw [parseTags, hext]
    rw [hparse, Tagged.text, hplain]
    exact eq_flatMap_encode data
  | some styles =>
    have hall : ∀ spans : List Span, spans.flatMap Span.text = render (fun _ => true) spans := by
      intro spans
      rw [render, List.filter_eq_self.2 fun _ _ => rfl]
    have hkept : keptText (fun _ => true) (tagging styles (splitLines (decode data).text)) =
        ((splitLines (decode data).text).map (lineText styles)).flatten := by
      rw [keptText, List.filter_eq_self.2 fun _ _ => rfl, texts_tagging]
    rw [Tagged.text, hall, render_parseTags hext hfault, ← hall, hplain, hkept, encode_flatten, List.flatMap_map,
      Option.getD_some]

/-- The texts of all spans of a file make up the file exactly if none of its lines is a directive; if some line is,
they are shorter than the file. -/
theorem text_parseTags (extension : String) (data : Bytes) (hfault : (parseTags extension data).fault = none) :
    let styles := (CommentStyle.forExtension? extension).getD []
    let lines := splitLines (decode data).text
    ((parseTags extension data).text = data ↔ ∀ line ∈ lines, Directive.readAny? styles (lineBody line) = none) ∧
    ((∃ line ∈ lines, Directive.readAny? styles (lineBody line) ≠ none) →
      (parseTags extension data).text.length < data.length) := by
  intro styles lines
  have hplain : (∀ line ∈ lines, Directive.readAny? styles (lineBody line) = none) →
      (parseTags extension data).text = data := by
    intro hnone
    rw [text_eq_flatMap hfault]
    conv => rhs; rw [eq_flatMap_encode data]
    refine congrArg _ (List.flatMap_congr fun line hline => ?_)
    rw [lineText_of_none (hnone line hline)]
  have hshorter : (∃ line ∈ lines, Directive.readAny? styles (lineBody line) ≠ none) →
      (parseTags extension data).text.length < data.length := by
    rintro ⟨line, hline, hsome⟩
    rw [text_eq_flatMap hfault]
    conv => rhs; rw [eq_flatMap_encode data]
    rw [List.length_append, List.length_append, List.length_flatMap, List.length_flatMap]
    refine Nat.add_lt_add_left (List.sum_lt_sum _ _ (fun l hl => length_lineText_le styles (ne_nil_of_mem_splitLines hl) _)
      ⟨line, hline, length_lineText_lt hsome (ne_nil_of_mem_splitLines hline) _⟩) _
  refine ⟨⟨fun htext => ?_, hplain⟩, hshorter⟩
  by_contra hsome
  push Not at hsome
  have hless := hshorter hsome
  rw [htext] at hless
  exact absurd hless (Nat.lt_irrefl _)

/-- A marked file with a stub whose replacement is a stub. -/
def sampleNestedStub : Bytes := (utf16 .big).encode (0xFEFF :: Text.ofString "a\r\n// STUB: // STUB: b\r\n")

/-- The sample gets shorter, though a stub is left; a comment that does not fill its line is none and stays. -/
theorem sampleNestedStub_shorter :
    (parseTags "java" sampleNestedStub).fault = none ∧
    (parseTags "java" sampleNestedStub).text = (utf16 .big).encode (0xFEFF :: Text.ofString "a\r\n// STUB: b\r\n") ∧
    (parseTags "java" sampleNestedStub).text.length < sampleNestedStub.length ∧
    (parseTags "java" (Bytes.ofString "a // STUB: b\n")).text = Bytes.ofString "a // STUB: b\n" := by
  have hfault : (parseTags "java" sampleNestedStub).fault = none := by decide +kernel
  have hnested := text_parseTags "java" sampleNestedStub hfault
  have hplain := text_parseTags "java" (Bytes.ofString "a // STUB: b\n") (by decide +kernel)
  exact ⟨hfault, by decide +kernel, hnested.2 (by decide +kernel), hplain.1.2 (by decide +kernel)⟩

end Handout
