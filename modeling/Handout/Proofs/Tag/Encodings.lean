import Handout.Proofs.Tag.Directive
import Handout.Proofs.Tag.Redaction
import Handout.Proofs.Text.Decoding
import Handout.Proofs.Text.Unmarked

/-!
# Tagging does not depend on the encoding

A marked file in a wide encoding is decoded to its text, and so is a file in ASCII, which is read byte by byte.  From
there on only the text matters: the lines are tagged, and each is encoded again.  What takes the place of a line has
its characters from the line, so it is read back from every wide encoding as well (`parseTags_marked`).  Enough ASCII
needs no mark to be recognized in a wide encoding (`parseTags_unmarked`).
-/

namespace Handout

open Encoding

variable {extension : String} {styles : List CommentStyle}

private theorem parseTags_of_decode (hext : CommentStyle.forExtension? extension = some styles) {data : Bytes}
    {file : Decoded} (hfile : decode data = file) :
    parseTags extension data =
      ⟨plainSpan file.mark ++ (tagLines styles (splitLines file.text)).1.map (TaggedLine.span file.encoding),
        (tagLines styles (splitLines file.text)).2⟩ := by
  simp only [parseTags, hext, hfile]

/-- The lines of a text, tagged or replaced, have no other characters than the text. -/
private theorem mem_of_tagged {s : Text} {l : TaggedLine} (h : l ∈ (tagLines styles (splitLines s)).1) :
    (∀ c ∈ l.raw, c ∈ s) ∧ ∀ c ∈ l.text, c ∈ s := by
  obtain ⟨hraw, htext⟩ := Lexer.mem_of_mem_run h
  have hline : ∀ c ∈ l.raw, c ∈ s := by
    intro c hc
    rw [← flatten_splitLines s]
    exact List.mem_flatten_of_mem hraw hc
  exact ⟨hline, fun c hc => hline c (htext c hc)⟩

private theorem plainSpan_mark {e : Encoding} (he : e ≠ latin1) :
    plainSpan (e.encode [0xFEFF]) = [⟨.plain, e.encode [0xFEFF], e.encode [0xFEFF]⟩] := by
  match e with
  | latin1 => exact absurd rfl he
  | utf16 .little | utf16 .big | utf32 .little | utf32 .big => rfl

/-- A marked text in a wide encoding has the span of the mark and then those of the tagged lines of the text, up to
the same fault; each line is read back from what it covers in the file and from what takes its place.  An output is
the mark followed by one and the same text.  If the text is ASCII, its bytes alone have the same spans behind the
mark. -/
theorem parseTags_marked (hext : CommentStyle.forExtension? extension = some styles) (s : Text)
    (hs : ∀ c ∈ s, Text.IsScalar c) (h0 : s.head? ≠ some 0) :
    let lines := (tagLines styles (splitLines s)).1
    let fault := (tagLines styles (splitLines s)).2
    (∀ e : Encoding, e ≠ latin1 →
      parseTags extension (e.encode (0xFEFF :: s)) =
          ⟨⟨.plain, e.encode [0xFEFF], e.encode [0xFEFF]⟩ :: lines.map (TaggedLine.span e), fault⟩ ∧
        (∀ l ∈ lines, e.decode? (l.span e).text = some l.text ∧ e.decode? (l.span e).raw = some l.raw) ∧
        ∀ keep ∈ [SpanFilter.solution, SpanFilter.stub, SpanFilter.review],
          render keep (parseTags extension (e.encode (0xFEFF :: s))).spans =
            e.encode [0xFEFF] ++ e.encode (keptText keep lines)) ∧
    ((∀ c ∈ s, 0 < c ∧ c < 128) →
      parseTags extension (latin1.encode s) = ⟨lines.map (TaggedLine.span latin1), fault⟩ ∧
        ∀ l ∈ lines, latin1.decode? (l.span latin1).text = some l.text ∧
          latin1.decode? (l.span latin1).raw = some l.raw) := by
  intro lines fault
  constructor
  · intro e he
    have hparse : parseTags extension (e.encode (0xFEFF :: s)) =
        ⟨⟨.plain, e.encode [0xFEFF], e.encode [0xFEFF]⟩ :: lines.map (TaggedLine.span e), fault⟩ := by
      rw [parseTags_of_decode hext (decode_marked he hs h0), plainSpan_mark he]
      rfl
    refine ⟨hparse, ?_, ?_⟩
    · intro l hl
      obtain ⟨hraw, htext⟩ := mem_of_tagged hl
      exact ⟨decode?_encode he fun c hc => hs c (htext c hc), decode?_encode he fun c hc => hs c (hraw c hc)⟩
    · intro keep hkeep
      -- all three keep plain spans, hence the mark
      have hplain : keep .plain = true := by
        simp only [List.mem_cons, List.not_mem_nil, or_false] at hkeep
        rcases hkeep with rfl | rfl | rfl <;> rfl
      rw [hparse, ← render_spans]
      simp [render, hplain]
  · intro hascii
    constructor
    · rw [parseTags_of_decode hext (decode_ascii hascii)]
      rfl
    · intro l hl
      obtain ⟨hraw, htext⟩ := mem_of_tagged hl
      have hbyte : ∀ c ∈ s, c < 256 := by
        intro c hc
        have := hascii c hc
        omega
      exact ⟨decode?_latin1 fun c hc => hbyte c (htext c hc), decode?_latin1 fun c hc => hbyte c (hraw c hc)⟩

/-- A text with a stub, a solution, a character beyond the basic plane, and one whose bytes are those of a carriage
return and a line feed. -/
def sampleText : Text := Text.ofString "// STUB: \u0d0a\n// BEGIN SOLUTION\r\n😀\r// END SOLUTION\n\u0a0d"

/-- The stub of the sample has the replacement and the last line; without the wide characters it is also what the
bytes alone give. -/
theorem sampleText_tagged :
    (∀ e : Encoding, e ≠ latin1 →
      render .stub (parseTags "java" (e.encode (0xFEFF :: sampleText))).spans =
        e.encode [0xFEFF] ++ e.encode [0x0D0A, 10, 0x0A0D]) ∧
    parseTags "py" (latin1.encode (Text.ofString "# STUB: x\n# END HIDDEN\ny")) =
      ⟨[⟨.stub, Bytes.ofString "x\n", Bytes.ofString "# STUB: x\n"⟩],
        some ⟨.balance, 2, Text.ofString "# END HIDDEN\n"⟩⟩ := by
  constructor
  · intro e he
    have hext : CommentStyle.forExtension? "java" = some [.line "//", .block "/*" "*/"] := by decide +kernel
    have h := (parseTags_marked hext sampleText (by decide +kernel) (by decide +kernel)).1 e he
    have hkept : keptText SpanFilter.stub (tagLines [.line "//", .block "/*" "*/"] (splitLines sampleText)).1 =
        [0x0D0A, 10, 0x0A0D] := by decide +kernel
    rw [h.2.2 SpanFilter.stub (by simp), hkept]
  · have hext : CommentStyle.forExtension? "py" = some [.line "#"] := by decide +kernel
    have h := (parseTags_marked hext (Text.ofString "# STUB: x\n# END HIDDEN\ny") (by decide +kernel)
      (by decide +kernel)).2 (by decide +kernel)
    rw [h.1]
    decide +kernel

/-- The span that takes the place of a span of ASCII in a file with another encoding. -/
def Span.recode (e : Encoding) (span : Span) : Span :=
  ⟨span.kind, e.encode (span.text.map UInt8.toNat), e.encode (span.raw.map UInt8.toNat)⟩

/-- At least twenty characters of ASCII are recognized in every wide encoding without a mark.  So the spans of the
file are those of the ASCII file, of the same kinds and in its own encoding, up to the same fault. -/
theorem parseTags_unmarked {e : Encoding} (he : e ≠ latin1) {s : Text} (hs : ∀ c ∈ s, 0 < c ∧ c < 128)
    (hlength : 20 ≤ s.length) :
    Detection.wideEncoding? (e.encode s) = some ([], e) ∧
    ∀ extension styles, CommentStyle.forExtension? extension = some styles →
      parseTags extension (e.encode s) =
        ⟨(parseTags extension (latin1.encode s)).spans.map (Span.recode e),
          (parseTags extension (latin1.encode s)).fault⟩ := by
  have hwide := Detection.wideEncoding?_ascii he hs hlength
  refine ⟨hwide, fun extension styles hext => ?_⟩
  have hscalar : ∀ c ∈ s, Text.IsScalar c := by
    intro c hc
    have := hs c hc
    exact ⟨by omega, by omega⟩
  have hdecode : decode (e.encode s) = ⟨[], e, s⟩ := by
    rw [decode, hwide]
    simp only [List.length_nil, List.drop_zero, decode?_encode he hscalar]
  rw [parseTags_of_decode hext hdecode, parseTags_of_decode hext (decode_ascii hs)]
  simp only [plainSpan, List.isEmpty_nil, if_true, List.nil_append, List.map_map]
  congr 1
  refine List.map_congr_left fun l hl => ?_
  obtain ⟨hraw, htext⟩ := mem_of_tagged hl
  have hread : ∀ t : Text, (∀ c ∈ t, c ∈ s) → (latin1.encode t).map UInt8.toNat = t := by
    intro t ht
    refine Option.some.inj (decode?_latin1 fun c hc => ?_)
    have := hs c (ht c hc)
    omega
  simp only [Function.comp_apply, TaggedLine.span, Span.recode, hread _ htext, hread _ hraw]

/-- Twenty characters with a stub and a block that is not closed. -/
def sampleAscii : Text := Text.ofString "#STUB:x\n#END HIDDEN\n"

theorem sampleAscii_recognized :
    Detection.wideEncoding? ((utf16 .big).encode sampleAscii) = some ([], utf16 .big) ∧
    parseTags "py" ((utf16 .big).encode sampleAscii) =
      ⟨[⟨.stub, [0, 120, 0, 10], (utf16 .big).encode (Text.ofString "#STUB:x\n")⟩],
        some ⟨.balance, 2, Text.ofString "#END HIDDEN\n"⟩⟩ := by
  have hext : CommentStyle.forExtension? "py" = some [.line "#"] := by decide +kernel
  obtain ⟨hwide, hparse⟩ := parseTags_unmarked (e := utf16 .big) nofun (s := sampleAscii) (by decide +kernel)
    (by decide +kernel)
  refine ⟨hwide, ?_⟩
  rw [hparse "py" _ hext]
  decide +kernel

end Handout
