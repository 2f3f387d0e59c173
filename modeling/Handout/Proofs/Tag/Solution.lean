import Handout.Proofs.Tag.Restub

/-!
# Solutions have no tags

A solution keeps every line that is no directive, in whatever block it stands, and nothing else: a stub is left out
with its replacement, and any other directive has an empty text (`keptText_solution`).  Data that is read byte by
byte has a solution that consists of such lines, so when it is read byte by byte as well, it has no tags, although a
carriage return and a line feed that come together may make it fall into other lines (`render_solution`).
-/

namespace Handout

open Encoding

variable {styles : List CommentStyle} {keep : SpanFilter} {extension : String} {data : Bytes} {spans : List Span}

/-- The lines that are no directives. -/
def withoutDirectives (styles : List CommentStyle) (lines : List Text) : List Text :=
  lines.filter fun line => (Directive.readAny? styles (lineBody line)).isNone

private theorem keptText_tagLine (styles : List CommentStyle) (before : List Tag) (line : Text) :
    keptText .solution [tagLine styles before line] = (withoutDirectives styles [line]).flatten := by
  cases hd : Directive.readAny? styles (lineBody line) with
  | none =>
    -- solutions keep the lines of every block
    cases hb : Tag.enclosing before with
    | none => simp [keptText, withoutDirectives, tagLine, hd, hb, SpanFilter.solution]
    | some b => cases b <;> simp [keptText, withoutDirectives, tagLine, hd, hb, SpanFilter.solution, Block.kind]
  | some d =>
    have hnone : (withoutDirectives styles [line]).flatten = [] := by simp [withoutDirectives, hd]
    rw [hnone]
    cases d with
    | stub indent replacement => simp [keptText, tagLine, hd, Directive.tag, Tag.kind, SpanFilter.solution]
    | keyword indent k written =>
      rw [keptText, List.flatten_eq_nil_iff]
      intro text htext
      obtain ⟨l, hl, rfl⟩ := List.mem_map.1 htext
      rw [List.mem_singleton.1 (List.mem_filter.1 hl).1, tagLine, hd]
      rfl

/-- What a solution has of a file are the lines that are no directives. -/
theorem keptText_solution (styles : List CommentStyle) (lines : List Text) :
    keptText .solution (tagging styles lines) = (withoutDirectives styles lines).flatten := by
  induction lines using List.reverseRecOn with
  | nil => rfl
  | append_singleton before line ih =>
    rw [tagging_concat, keptText_append, ih, keptText_tagLine, ← List.flatten_append]
    unfold withoutDirectives
    rw [← List.filter_append]

/-- Lines of narrow data, written again, have no other bytes than the data. -/
private theorem mem_of_mem_withoutDirectives {b : UInt8}
    (h : b ∈ latin1.encode (withoutDirectives styles (splitLines (data.map UInt8.toNat))).flatten) : b ∈ data := by
  obtain ⟨c, hc, hb⟩ := List.mem_flatMap.1 h
  obtain ⟨line, hline, hc⟩ := List.mem_flatten.1 hc
  have hmem : c ∈ data.map UInt8.toNat := by
    rw [← flatten_splitLines (data.map UInt8.toNat)]
    exact List.mem_flatten_of_mem (List.mem_filter.1 hline).1 hc
  obtain ⟨byte, hbyte, rfl⟩ := List.mem_map.1 hmem
  rw [encodeChar, List.mem_singleton, UInt8.ofNat_toNat] at hb
  rwa [hb]

/-- All outputs that keep plain spans are the same where all spans are plain. -/
private theorem render_of_plain (hkeep : keep .plain = true) (hplain : ∀ span ∈ spans, span.kind = .plain) :
    render keep spans = spans.flatMap Span.text := by
  rw [render, List.filter_eq_self.2]
  intro span hspan
  rw [hplain span hspan, hkeep]

/-- The solution of data without zero bytes and without a byte order mark consists of the lines that are no
directives.  If it does not begin with such a mark either, it is read without fault, all its spans are plain, and
every output for it is the solution again. -/
theorem render_solution (hext : CommentStyle.forExtension? extension = some styles) (hzero : 0 ∉ data)
    (hmark : Detection.mark? data = none) (hfault : (parseTags extension data).fault = none) :
    let out := render .solution (parseTags extension data).spans
    out = latin1.encode (withoutDirectives styles (splitLines (data.map UInt8.toNat))).flatten ∧
    (Detection.mark? out = none →
      (parseTags extension out).fault = none ∧ (∀ span ∈ (parseTags extension out).spans, span.kind = .plain) ∧
      ∀ keep ∈ [SpanFilter.solution, SpanFilter.stub, SpanFilter.review],
        render keep (parseTags extension out).spans = out) := by
  intro out
  have hread := decode_narrow hzero hmark
  have hout : out = latin1.encode (withoutDirectives styles (splitLines (data.map UInt8.toNat))).flatten := by
    have h : out = _ := render_parseTags hext hfault
    rw [h, hread, keptText_solution]
    rfl
  refine ⟨hout, fun hmark' => ?_⟩
  have hread' : decode out = ⟨[], latin1, out.map UInt8.toNat⟩ := by
    refine decode_narrow (fun hmem => hzero ?_) hmark'
    rw [hout] at hmem
    exact mem_of_mem_withoutDirectives hmem
  have hsettles : Settles .solution extension data := by
    refine ⟨nofun, ?_, ?_⟩
    · show (decode out).mark = _
      rw [hread', hread]
    · show (decode out).encoding = _
      rw [hread', hread]
  obtain ⟨hfault', hplain, hsame⟩ := render_settled rfl hfault hsettles
  refine ⟨hfault', hplain, fun keep hkeep => ?_⟩
  have hkeep : keep .plain = true := by
    simp only [List.mem_cons, List.not_mem_nil, or_false] at hkeep
    rcases hkeep with rfl | rfl | rfl <;> rfl
  calc render keep (parseTags extension out).spans
      = render .solution (parseTags extension out).spans := by
        rw [render_of_plain hkeep hplain, render_of_plain rfl hplain]
    _ = out := hsame

/-- A stub and a hidden region in front of a carriage return and a line feed that meet when the directives between
them are left out. -/
def sampleSolution : Bytes :=
  Bytes.ofString "a\r// STUB: // STUB: b\n\n//BEGIN HIDDEN\nc\r/* END HIDDEN */\n\nd // STUB: e"

/-- The solution of the sample has its four other lines, of which two are but a line feed; in the solution these
belong to the lines before them. -/
theorem render_sampleSolution :
    render .solution (parseTags "java" sampleSolution).spans = Bytes.ofString "a\r\nc\r\nd // STUB: e" ∧
    parseTags "java" (Bytes.ofString "a\r\nc\r\nd // STUB: e") =
      ⟨[⟨.plain, Bytes.ofString "a\r\n", Bytes.ofString "a\r\n"⟩, ⟨.plain, Bytes.ofString "c\r\n", Bytes.ofString "c\r\n"⟩,
        ⟨.plain, Bytes.ofString "d // STUB: e", Bytes.ofString "d // STUB: e"⟩], none⟩ ∧
    render .stub (parseTags "java" (Bytes.ofString "a\r\nc\r\nd // STUB: e")).spans =
      Bytes.ofString "a\r\nc\r\nd // STUB: e" := by
  have hext : CommentStyle.forExtension? "java" = some [.line "//", .block "/*" "*/"] := by decide +kernel
  have hzero : 0 ∉ sampleSolution := by decide +kernel
  obtain ⟨hout, hagain⟩ := render_solution hext hzero (by decide +kernel) (by decide +kernel)
  have hlines : latin1.encode (withoutDirectives [.line "//", .block "/*" "*/"]
      (splitLines (sampleSolution.map UInt8.toNat))).flatten = Bytes.ofString "a\r\nc\r\nd // STUB: e" := by
    decide +kernel
  rw [hlines] at hout
  rw [hout] at hagain ⊢
  obtain ⟨-, -, hkeep⟩ := hagain (by decide +kernel)
  exact ⟨rfl, by decide +kernel, hkeep .stub (by simp)⟩

end Handout
