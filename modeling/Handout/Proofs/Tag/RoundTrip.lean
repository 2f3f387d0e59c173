import Handout.Proofs.Tag.Lexer
import Handout.Proofs.Tag.Line
import Handout.Proofs.Text.Encoding
import Handout.Tag.Parse

/-!
# The spans of a file cover it

A decoded file is its byte order mark and the encoding of its text (`mark_append_encode`), whichever way it was
decoded.  So the spans of a file, put together, are the file as far as it has been tagged: all of it if there is no
fault or if a block is open at its end, and else everything before the line at which tagging stops
(`raw_parseTags`).
-/

namespace Handout

/-- The bytes that the spans of a file cover. -/
def Tagged.raw (t : Tagged) : Bytes := t.spans.flatMap Span.raw

/-- The number of lines that have been tagged: every span is a line, but for that of the byte order mark. -/
def Tagged.lineCount (t : Tagged) (file : Decoded) : Nat := t.spans.length - (plainSpan file.mark).length

/-- A file is its mark and the encoding of its text. -/
theorem mark_append_encode (data : Bytes) : (decode data).mark ++ (decode data).encoding.encode (decode data).text = data := by
  have hnarrow : ([] : Bytes) ++ Encoding.latin1.encode (data.map UInt8.toNat) = data := Encoding.encode_latin1 data
  unfold decode
  split
  · exact hnarrow
  · rename_i mark encoding hwide
    have hmark : mark <+: data := by
      unfold Detection.wideEncoding? at hwide
      split at hwide
      · rename_i m hm
        cases hwide
        rw [Detection.mark?] at hm
        have hprefix := List.find?_some hm
        exact List.isPrefixOf_iff_prefix.1 hprefix
      · split at hwide
        · obtain ⟨e, _, he⟩ := Option.map_eq_some_iff.1 hwide
          cases he
          exact List.nil_prefix
        · cases hwide
    split
    · rename_i text htext
      rw [Encoding.encode_of_decode? htext]
      exact List.prefix_iff_eq_append.1 hmark
    · exact hnarrow

private theorem raw_plainSpan (data : Bytes) : (plainSpan data).flatMap Span.raw = data := by
  unfold plainSpan
  split
  · rename_i h; rw [List.isEmpty_iff.1 h]; rfl
  · simp

private theorem raw_spans (e : Encoding) (ls : List TaggedLine) :
    (ls.map (TaggedLine.span e)).flatMap Span.raw = e.encode (ls.map TaggedLine.raw).flatten := by
  rw [Encoding.encode_flatten, List.flatMap_map, List.flatMap_map]
  rfl

/-- The lines of a text before its `k`-th line, and that line, begin the text. -/
private theorem encode_take_prefix (e : Encoding) (mark : Bytes) {t line : Text} {k : Nat}
    (h : (splitLines t)[k]? = some line) :
    mark ++ e.encode ((splitLines t).take k).flatten ++ e.encode line <+: mark ++ e.encode t := by
  have hsplit : splitLines t = (splitLines t).take k ++ line :: (splitLines t).drop (k + 1) := by
    obtain ⟨hk, rfl⟩ := List.getElem?_eq_some_iff.1 h
    rw [← List.drop_eq_getElem_cons hk, List.take_append_drop]
  have ht : t = ((splitLines t).take k).flatten ++ (line ++ ((splitLines t).drop (k + 1)).flatten) := by
    rw [← List.flatten_cons, ← List.flatten_append, ← hsplit, flatten_splitLines]
  conv => rhs; rw [ht]
  rw [Encoding.encode_append, Encoding.encode_append, List.append_assoc, ← List.append_assoc (e.encode _)]
  exact ⟨_, List.append_assoc ..⟩

/-- The spans of a file cover all of it, unless tagging stops in the middle of the file; then they cover what comes
before the line that breaks a rule. -/
theorem raw_parseTags (extension : String) (data : Bytes) :
    let file := decode data
    let tagged := parseTags extension data
    (tagged.fault = none → tagged.raw = data) ∧
    ∀ fault, tagged.fault = some fault →
      (tagged.lineCount file = (splitLines file.text).length ∧ fault.lineNumber ≤ tagged.lineCount file ∧
        tagged.raw = data) ∨
      (tagged.lineCount file < (splitLines file.text).length ∧ fault.lineNumber = tagged.lineCount file + 1 ∧
        tagged.raw ++ file.encoding.encode fault.line <+: data) := by
  intro file tagged
  have hfile : file.mark ++ file.encoding.encode file.text = data := mark_append_encode data
  cases hext : CommentStyle.forExtension? extension with
  | none =>
    have htagged : tagged = ⟨plainSpan data, none⟩ := by simp only [tagged, parseTags, hext]
    rw [htagged]
    exact ⟨fun _ => raw_plainSpan data, nofun⟩
  | some styles =>
    let run := tagLines styles (splitLines file.text)
    have htagged : tagged = ⟨plainSpan file.mark ++ run.1.map (TaggedLine.span file.encoding), run.2⟩ := by
      simp only [tagged, parseTags, hext]
      rfl
    have hlines : run.1.map TaggedLine.raw = (splitLines file.text).take run.1.length :=
      Lexer.raws_run styles {} 1 (splitLines file.text)
    have hcount : tagged.lineCount file = run.1.length := by simp [htagged, Tagged.lineCount]
    have hraw : tagged.raw = file.mark ++ file.encoding.encode ((splitLines file.text).take run.1.length).flatten := by
      rw [htagged, Tagged.raw, List.flatMap_append, raw_plainSpan, raw_spans, hlines]
    have hall (h : run.1.length = (splitLines file.text).length) : tagged.raw = data := by
      rw [hraw, h, List.take_length, flatten_splitLines, hfile]
    constructor
    · intro hf
      rw [htagged] at hf
      exact hall (Lexer.length_run_of_none hf)
    · intro fault hf
      rw [hcount]
      rcases Nat.lt_or_eq_of_le (Lexer.length_run_le styles {} 1 (splitLines file.text)) with hlt | heq
      · right
        obtain ⟨fault', hf', hline, hn⟩ := Lexer.fault_of_length_lt hlt
        have hsame : fault' = fault := by
          rw [htagged] at hf
          exact Option.some.inj (hf'.symm.trans hf)
        subst hsame
        refine ⟨hlt, by rw [hn, Nat.add_comm]; rfl, ?_⟩
        rw [hraw, ← hfile]
        exact encode_take_prefix _ _ hline
      · left
        have hn : fault.lineNumber < 1 + run.1.length := by
          rw [htagged] at hf
          exact Lexer.lineNumber_lt_of_length_eq nofun heq hf
        exact ⟨heq, by omega, hall heq⟩

end Handout
