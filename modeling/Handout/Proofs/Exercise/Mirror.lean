import Handout.Exercise.Derive
import Handout.Proofs.Exercise.Overlay

/-!
# What deriving writes

Deriving a solution or a stub writes the mirror of an exercise (`process_mirrors`): a binary file as it is, another
one as the filter renders it, and nothing for a file that is left out.  The invariant is `Mirrored`, which says of
every location what is stored there when some of the files are done.  A broken tag stops the run in front of its
file.
-/

namespace Handout.Exercise

open Handout.Action Session

variable {keep : SpanFilter} {before s t u : Session} {source target known f : Path} {d place : Location}
  {names rel rel' : List String} {done : List Path} {data : Bytes} {out out' : Option Bytes}

/-- What a filter makes of the content of a file; nothing if it leaves the file out. -/
def output? (keep : SpanFilter) (f : Path) (data : Bytes) : Option Bytes :=
  if isBinary f then some data
  else
    let spans := (parseTags f.extension data).spans
    if isLeftOut keep spans then none else some (render keep spans)

theorem output?_of_isBinary (h : isBinary f = true) : output? keep f data = some data := if_pos h

theorem output?_of_isLeftOut (h : isBinary f = false)
    (hleft : isLeftOut keep (parseTags f.extension data).spans = true) : output? keep f data = none := by
  unfold output?
  rw [h, if_neg Bool.false_ne_true, if_pos hleft]

theorem output?_of_kept (h : isBinary f = false) (hkept : isLeftOut keep (parseTags f.extension data).spans = false) :
    output? keep f data = some (render keep (parseTags f.extension data).spans) := by
  unfold output?
  rw [h, if_neg Bool.false_ne_true, if_neg (Bool.not_eq_true _ ▸ hkept)]

/-- A file can be read, its tags are not broken, and this is what a filter makes of it. -/
def Yields (keep : SpanFilter) (s : Session) (f : Path) (out : Option Bytes) : Prop :=
  ∃ data, s.content? f.written = .ok data ∧ (isBinary f = false → (parseTags f.extension data).fault = none) ∧
    out = output? keep f data

/-- The first broken tag of a file that is no binary one. -/
def Faulty (s : Session) (f : Path) (fault : TagFault) : Prop :=
  isBinary f = false ∧ ∃ data, s.content? f.written = .ok data ∧ (parseTags f.extension data).fault = some fault

theorem Yields.unique (h : Yields keep s f out) (h' : Yields keep s f out') : out = out' := by
  obtain ⟨data, hdata, -, hout⟩ := h
  obtain ⟨data', hdata', -, hout'⟩ := h'
  obtain rfl := Except.ok.inj (hdata.symm.trans hdata')
  exact hout.trans hout'.symm

/-- Among the files that are done is one of which something is written, in this place. -/
def Writes (keep : SpanFilter) (before : Session) (source : Path) (done : List Path) (rel : List String)
    (data : Bytes) : Prop :=
  source.append rel ∈ done ∧ Yields keep before (source.append rel) (some data)

/-- Of the files of an exercise that are done the mirror has been written, and nothing else has changed. -/
structure Mirrored (keep : SpanFilter) (before after : Session) (source : Path) (place : Location)
    (done : List Path) : Prop where
  only : after = { before with files := after.files, log := after.log }
  sound : after.Sound
  yields : ∀ f ∈ done, ∃ rel out, f = source.append rel ∧ Yields keep before f out
  written : ∀ rel data, Writes keep before source done rel data →
    ∃ flag, Flagged (before.files.get? (place ++ rel)) flag ∧ after.files.get? (place ++ rel) = some (.file data flag)
  /-- What is in the place of a file that is left out stays as it is. -/
  left : ∀ rel, source.append rel ∈ done → Yields keep before (source.append rel) none →
    after.files.get? (place ++ rel) = before.files.get? (place ++ rel)
  /-- Elsewhere, nothing has changed but that missing directories around written files have been made. -/
  others : ∀ x, (∀ rel data, Writes keep before source done rel data → x ≠ place ++ rel) →
    after.files.get? x = before.files.get? x ∨
      before.files.get? x = none ∧ after.files.get? x = some .directory ∧
        ∃ rel data, Writes keep before source done rel data ∧ x <+: place ++ rel.dropLast

/-- The written files are laid over what was stored before. -/
theorem Mirrored.overlaid (h : Mirrored keep before s source place done) :
    Overlaid before s place (Writes keep before source done) := ⟨h.only, h.sound, h.written, h.others⟩

theorem Mirrored.start (hs : s.Sound) : Mirrored keep s s source place [] where
  only := rfl
  sound := hs
  yields _ hf := absurd hf List.not_mem_nil
  written _ _ h := absurd h.1 List.not_mem_nil
  left _ h := absurd h List.not_mem_nil
  others _ _ := .inl rfl

theorem Mirrored.log (h : Mirrored keep before s source place done) (log : List LogRecord) :
    Mirrored keep before { s with log := log } source place done :=
  ⟨congrArg (fun v : Session => { v with log := log }) h.only, ⟨h.sound.files, h.sound.workingDir⟩, h.yields, h.written,
    h.left, h.others⟩

/-! ### A file more -/

/-- A file that does not lie around or below files that are done. -/
def Apart (source : Path) (done : List Path) (rel : List String) : Prop :=
  ∀ rel', source.append rel' ∈ done → rel' <+: rel ∨ rel <+: rel' → rel' = rel

private theorem Writes.of_concat (h : Writes keep before source (done ++ [source.append rel]) rel' data) :
    Writes keep before source done rel' data ∨ rel' = rel := by
  rcases List.mem_append.1 h.1 with hdone | hnew
  · exact .inl ⟨hdone, h.2⟩
  · exact .inr (List.append_cancel_left (congrArg Path.parts (List.mem_singleton.1 hnew)))

private theorem Writes.concat (h : Writes keep before source done rel' data) :
    Writes keep before source (done ++ [f]) rel' data := ⟨List.mem_append_left _ h.1, h.2⟩

/-- A file that is left out is done without any change. -/
theorem Mirrored.skip (h : Mirrored keep before s source place done) (hapart : Apart source done rel)
    (hrel : ∀ rel', source.append rel' ∈ done → rel' ≠ []) (hy : Yields keep before (source.append rel) none) :
    Mirrored keep before s source place (done ++ [source.append rel]) where
  only := h.only
  sound := h.sound
  yields f hf := by
    rcases List.mem_append.1 hf with hf | hf
    · exact h.yields f hf
    · exact ⟨rel, none, List.mem_singleton.1 hf, List.mem_singleton.1 hf ▸ hy⟩
  written rel' data hw := by
    rcases hw.of_concat with hw | rfl
    · exact h.written rel' data hw
    · cases hw.2.unique hy
  left rel' hmem hy' := by
    rcases List.mem_append.1 hmem with hmem | hmem
    · exact h.left rel' hmem hy'
    obtain rfl : rel' = rel := List.append_cancel_left (congrArg Path.parts (List.mem_singleton.1 hmem))
    have hfree : ∀ rel'' data, Writes keep before source done rel'' data → place ++ rel' ≠ place ++ rel'' := by
      intro rel'' data hw he
      obtain rfl := List.append_cancel_left he
      cases hw.2.unique hy
    refine (h.others _ hfree).resolve_right ?_
    rintro ⟨-, -, rel'', data, hw, hprefix⟩
    have hbelow := (List.prefix_append_right_inj place).1 hprefix
    obtain rfl := hapart rel'' hw.1 (.inr (hbelow.trans (List.dropLast_prefix _)))
    exact not_prefix_dropLast (hrel _ hw.1) hbelow
  others x hx := by
    refine (h.others x fun rel' data hw => hx rel' data hw.concat).imp_right fun ⟨hnone, hdir, rel', data, hw, hp⟩ => ?_
    exact ⟨hnone, hdir, rel', data, hw.concat, hp⟩

/-- A file is done by writing it when its directory has been made. -/
theorem Mirrored.write {init : List String} {c : String} {flag : Bool} (h : Mirrored keep before s source place done)
    (hapart : Apart source done (init ++ [c])) (hopened : Opened s u (place ++ init))
    (hdir : u.files.get? (place ++ init) = some .directory) (hc : IsProper c)
    (hflag : Flagged (u.files.get? (place ++ (init ++ [c]))) flag)
    (hy : Yields keep before (source.append (init ++ [c])) (some data)) :
    Mirrored keep before { u with files := u.files.put (place ++ (init ++ [c])) (.file data flag) } source place
      (done ++ [source.append (init ++ [c])]) := by
  have hne : place ++ (init ++ [c]) ≠ [] := by simp
  have hlast : ¬ place ++ (init ++ [c]) <+: place ++ init := by
    rw [← List.append_assoc]
    exact not_concat_prefix_self _ c
  -- at the place of the file there is what was there at first, or what a file that is done has left there
  have hold : Flagged (before.files.get? (place ++ (init ++ [c]))) flag := by
    rw [hopened.eq_of_not_prefix hlast] at hflag
    exact h.overlaid.flagged hflag
  refine ⟨?_, ?_, fun f hf => ?_, fun rel' data' hw => ?_, fun rel' hmem hy' => ?_, fun x hx => ?_⟩
  · have honly := hopened.only.trans (congrArg (fun v : Session => { v with files := u.files, log := u.log }) h.only)
    exact congrArg (fun v : Session => { v with files := u.files.put (place ++ (init ++ [c])) (.file data flag) }) honly
  · rw [← List.append_assoc] at hflag ⊢
    exact hopened.sound.put hdir hc fun hd => absurd hd hflag.ne_directory
  · rcases List.mem_append.1 hf with hf | hf
    · exact h.yields f hf
    · exact ⟨init ++ [c], some data, List.mem_singleton.1 hf, List.mem_singleton.1 hf ▸ hy⟩
  · simp only
    rw [Files.get?_put hne]
    split
    · rename_i he
      obtain rfl := List.append_cancel_left he
      cases hw.2.unique hy
      exact ⟨flag, hold, rfl⟩
    · rename_i hother
      obtain ⟨flag', hflag', hstored⟩ := h.written rel' data' (hw.of_concat.resolve_right fun he => hother (by rw [he]))
      refine ⟨flag', hflag', ?_⟩
      rw [hopened.eq_of_ne_none (by rw [hstored]; exact Option.some_ne_none _), hstored]
  · have hother : rel' ≠ init ++ [c] := by
      rintro rfl
      cases hy.unique hy'
    have hmem' : source.append rel' ∈ done := (List.mem_append.1 hmem).resolve_right fun hnew =>
      hother (List.append_cancel_left (congrArg Path.parts (List.mem_singleton.1 hnew)))
    simp only
    rw [Files.get?_put_of_ne hne fun he => hother (List.append_cancel_left he), ← h.left rel' hmem' hy']
    refine hopened.eq_of_not_prefix fun hp => hother ?_
    exact hapart rel' hmem' (.inl (((List.prefix_append_right_inj place).1 hp).trans (List.prefix_append _ _)))
  · have hnew : Writes keep before source (done ++ [source.append (init ++ [c])]) (init ++ [c]) data :=
      ⟨List.mem_append_right _ (List.mem_singleton_self _), hy⟩
    have hfree : ∀ rel' data', Writes keep before source done rel' data' → x ≠ place ++ rel' :=
      fun rel' data' hw => hx rel' data' hw.concat
    simp only
    rw [Files.get?_put_of_ne hne (hx _ _ hnew)]
    rcases h.others x hfree with hsame | ⟨hnone, hmade, rel', data', hw, hp⟩
    · rcases hopened.stored x with hsame' | ⟨hnone', hmade', hp⟩
      · exact .inl (hsame'.trans hsame)
      · refine .inr ⟨hsame ▸ hnone', hmade', init ++ [c], data, hnew, ?_⟩
        rwa [List.dropLast_concat]
    · refine .inr ⟨hnone, ?_, rel', data', hw.concat, hp⟩
      rw [hopened.eq_of_ne_none (by rw [hmade]; exact Option.some_ne_none _), hmade]

/-- While files are done, nothing is stored but where files are to be put. -/
theorem Mirrored.grown (h : Mirrored keep before s source (d ++ names) done) (hs : before.Sound)
    (hq : Destination before target known d names) : Grown before s (d ++ names.take 1) := h.overlaid.grown hs hq

/-! ### Mirroring one file -/

theorem mirrored_append (source target : Path) (rel : List String) :
    mirrored source target (source.append rel) = target.append rel := by
  have hrelative : (source.append rel).relativeTo? source = some ⟨.relative, rel⟩ := by
    unfold Path.relativeTo?
    rw [if_pos ⟨rfl, by simp⟩]
    simp
  unfold mirrored
  rw [hrelative]
  rfl

/-- Parsing a file gives its spans, or fails with its first broken tag. -/
theorem parseFile_ensures (s : Session) (f : Path) :
    Ensures (fun t => t = s) (parseFile f)
      (fun spans t => t = s ∧ ∃ data, s.content? f.written = .ok data ∧ (parseTags f.extension data).fault = none ∧
        spans = (parseTags f.extension data).spans)
      (fun e t => t = s ∧ ∀ fault path, e = .tags fault path → path = some f ∧ ∃ data, s.content? f.written = .ok data ∧
        (parseTags f.extension data).fault = some fault) := by
  rintro t rfl
  unfold parseFile readFile
  rw [perform_bind, perform_during, perform_query]
  cases hdata : t.content? f.written with
  | error e =>
    have huntagged : Untagged e := by
      have h := neverTags_content f.written t trivial
      rw [perform_query, hdata] at h
      exact h
    refine ⟨rfl, fun fault path he => ?_⟩
    cases e <;> first | exact absurd rfl (huntagged _ _) | cases he
  | ok data =>
    simp only
    split
    · rename_i fault hfault
      refine ⟨rfl, fun fault' path he => ?_⟩
      cases he
      exact ⟨rfl, data, rfl, hfault⟩
    · rename_i hfault
      exact ⟨rfl, data, rfl, hfault, rfl⟩

section OneFile

variable {g : Path} {init : List String} {c : String}

/-- What may be assumed when it is the turn of a file: a walk visits it and those that are done, it lies apart from
these, and its path and the path of its mirror image end alike. -/
structure Turn (keep : SpanFilter) (before : Session) (source target known : Path) (d : Location) (names : List String)
    (done : List Path) (f g : Path) (init : List String) (c : String) (s : Session) : Prop where
  sound : before.Sound
  destination : Destination before target known d names
  undisturbed : Undisturbed before source (d ++ names.take 1)
  hasZero : source.hasZero = false
  file : f = source.append (init ++ [c])
  image : g = target.append (init ++ [c])
  proper : ∀ x ∈ init ++ [c], IsProper x
  apart : Apart source done (init ++ [c])
  visits : ∀ rel, source.append rel ∈ done ++ [f] → Visits before source rel
  mirrored : Mirrored keep before s source (d ++ names) done

theorem Turn.grown (h : Turn keep before source target known d names done f g init c s) :
    Grown before s (d ++ names.take 1) := h.mirrored.grown h.sound h.destination

theorem Turn.image_eq (h : Turn keep before source target known d names done f g init c s) :
    g = known.append (names ++ (init ++ [c])) := by
  rw [h.image, h.destination.path, Path.append_append]

theorem Turn.named (h : Turn keep before source target known d names done f g init c s) :
    ∀ x ∈ names ++ (init ++ [c]), IsName x := by
  intro x hx
  rcases List.mem_append.1 hx with hx | hx
  · exact h.destination.named x hx
  · exact (h.proper x hx).toIsName

theorem Turn.hasZero_file (h : Turn keep before source target known d names done f g init c s) : f.hasZero = false := by
  rw [h.file, Path.hasZero_append, h.hasZero, Bool.false_or, List.any_eq_false]
  intro x hx
  simpa using (h.proper x hx).noZero

/-- The content of the file is what it was at first. -/
theorem Turn.content? (h : Turn keep before source target known d names done f g init c s)
    (ht : Grown before t (d ++ names.take 1)) : t.content? f.written = before.content? f.written := by
  rw [h.file]
  exact ((h.undisturbed t ht).append fun x hx => (h.proper x hx).plain).content?

theorem Turn.parent_eq (h : Turn keep before source target known d names done f g init c s) :
    g.parent = known.append (names ++ init) := by
  rw [h.image_eq, ← List.append_assoc, Path.parent_append_concat]

theorem Turn.makeParent_ensures (h : Turn keep before source target known d names done f g init c s) :
    Ensures (fun t => t = s) (makeParent g)
      (fun _ t => Opened s t (d ++ names ++ init) ∧ t.files.get? (d ++ names ++ init) = some .directory)
      fun e _ => Untagged e := by
  have hnamed : ∀ x ∈ names ++ init, IsName x := by
    intro x hx
    refine h.named x ?_
    rw [← List.append_assoc]
    exact List.mem_append_left _ hx
  have hopens := makeDirectories_opens (h.destination.way h.grown init) hnamed
  rw [← List.append_assoc] at hopens
  unfold makeParent
  rw [h.parent_eq]
  exact (hopens.mono (fun _ ht => ht) (fun _ _ ht => ht) fun _ _ ht => ht.2).during_untagged _ _

/-- Storing the file at the end of its path does it. -/
theorem Turn.stored (h : Turn keep before source target known d names done f g init c s)
    (hy : Yields keep before f (some data)) {place : Place} {flag : Bool} (hopened : Opened s u (d ++ names ++ init))
    (hdir : u.files.get? (d ++ names ++ init) = some .directory) (hz : g.hasZero = false)
    (hfind : u.find true g = .ok place) (hflag : Flagged place.node flag) :
    Mirrored keep before { u with files := u.files.put place.location (.file data flag) } source (d ++ names)
      (done ++ [f]) := by
  have hgrown : Grown before u (d ++ names.take 1) :=
    h.grown.opened h.destination h.sound (List.prefix_append _ _) hopened
  rw [h.image_eq] at hz hfind
  obtain ⟨init', c', hsplit, -, hloc, hnode, -⟩ :=
    stored_at (h.destination.way hgrown (init ++ [c])) h.named hz (.inr rfl) hfind hflag.ne_directory
  have hplace : d ++ init' ++ [c'] = d ++ names ++ (init ++ [c]) := by
    rw [List.append_assoc, ← hsplit, ← List.append_assoc]
  rw [hplace] at hloc hnode
  rw [hnode] at hflag
  rw [hloc, h.file]
  rw [h.file] at hy
  exact h.mirrored.write h.apart hopened hdir (h.proper c (by simp)) hflag hy

/-- Leaving the file out does it, too. -/
theorem Turn.leftOut (h : Turn keep before source target known d names done f g init c s)
    (hy : Yields keep before f none) : Mirrored keep before s source (d ++ names) (done ++ [f]) := by
  rw [h.file] at hy ⊢
  exact h.mirrored.skip h.apart (fun rel hrel => (h.visits rel (List.mem_append_left _ hrel)).ne_nil) hy

/-- A broken tag is reported, and nothing has changed. -/
def Reports (keep : SpanFilter) (before : Session) (source : Path) (place : Location) (done : List Path) (f : Path)
    (e : Failure) (t : Session) : Prop :=
  ∀ fault path, e = .tags fault path → path = some f ∧ Faulty before f fault ∧ Mirrored keep before t source place done

theorem reports_of_untagged {e : Failure} (h : Untagged e) : Reports keep before source place done f e t :=
  fun fault path he => absurd he (h fault path)

/-- The mirror image of a binary file is a copy. -/
private theorem Turn.copy_ensures (h : Turn keep before source target known d names done f g init c s)
    (hbinary : isBinary f = true) :
    Ensures (fun t => Opened s t (d ++ names ++ init) ∧ t.files.get? (d ++ names ++ init) = some .directory)
      (Action.during .copy f (copyContent (.path f) f.written (.path g) g.written))
      (fun _ t => Mirrored keep before t source (d ++ names) (done ++ [f])) fun e _ => Untagged e := by
  refine Ensures.during_untagged ?_ _ _
  refine (copyContent_ensures fun t place loc data executable flag ht hz hsource hfind hflag => ?_).untagged
    (neverTags_copyContent _ _ _ _)
  have hgrown := h.grown.opened h.destination h.sound (List.prefix_append _ _) ht.1
  have hdata : before.content? f.written = .ok data := by
    rw [← h.content? hgrown]
    unfold Session.content?
    rw [show f.written.path = f from rfl, h.hasZero_file, if_neg Bool.false_ne_true, show t.find true f = _ from hsource]
  refine h.stored ⟨data, hdata, fun hno => ?_, (output?_of_isBinary hbinary).symm⟩ ht.1 ht.2 hz hfind hflag
  rw [hbinary] at hno
  cases hno

/-- The mirror image of another file is what is made of it. -/
private theorem Turn.write_ensures (h : Turn keep before source target known d names done f g init c s)
    (hy : Yields keep before f (some data)) :
    Ensures (fun t => Opened s t (d ++ names ++ init) ∧ t.files.get? (d ++ names ++ init) = some .directory)
      (Action.during .write g (Action.writeFile g.written data))
      (fun _ t => Mirrored keep before t source (d ++ names) (done ++ [f])) fun e _ => Untagged e := by
  refine Ensures.during_untagged ?_ _ _
  refine (writeFile_ensures fun t place flag ht hz hfind hflag => ?_).untagged (neverTags_writeFile _ _)
  exact h.stored hy ht.1 ht.2 hz hfind hflag

/-- An operation that mirrors a file in its turn, or fails in a certain way. -/
structure DoesTurns (keep : SpanFilter) (before : Session) (source target known : Path) (d : Location)
    (names : List String) (E : List Path → Path → Failure → Session → Prop) (visit : Path → Path → Action Unit) :
    Prop where
  ensures : ∀ done f g init c s, Turn keep before source target known d names done f g init c s →
    Ensures (fun t => t = s) (visit f g) (fun _ t => Mirrored keep before t source (d ++ names) (done ++ [f])) (E done f)

/-- A file is mirrored in its turn, or its first broken tag is reported and nothing changes. -/
theorem mirrorFile_doesTurns : DoesTurns keep before source target known d names
    (Reports keep before source (d ++ names)) (mirrorFile keep) := by
  refine ⟨?_⟩
  intro done f g init c s h
  have hparent := h.makeParent_ensures.mono (fun _ ht => ht) (fun _ _ ht => ht) fun e t he =>
    (reports_of_untagged he : Reports keep before source (d ++ names) done f e t)
  unfold mirrorFile
  split
  · rename_i hbinary
    exact hparent.bind fun _ => (h.copy_ensures hbinary).mono (fun _ ht => ht) (fun _ _ ht => ht) fun _ _ he =>
      reports_of_untagged he
  · rename_i hbinary
    have htext : isBinary f = false := Bool.not_eq_true _ ▸ hbinary
    refine Ensures.bind ((parseFile_ensures s f).mono (fun _ ht => ht) (fun _ _ ht => ht) fun e t ht fault path he => ?_)
      fun spans => ?_
    · obtain ⟨rfl, ht⟩ := ht
      obtain ⟨hpath, data, hdata, hfault⟩ := ht fault path he
      rw [h.content? h.grown] at hdata
      exact ⟨hpath, ⟨htext, data, hdata, hfault⟩, h.mirrored⟩
    rintro t ⟨rfl, data, hdata, hfault, hspans⟩
    rw [h.content? h.grown] at hdata
    split
    · rename_i hleft
      rw [hspans] at hleft
      exact h.leftOut ⟨data, hdata, fun _ => hfault, (output?_of_isLeftOut htext hleft).symm⟩
    · rename_i hkept
      rw [hspans] at hkept
      have hy : Yields keep before f (some (render keep spans)) := by
        rw [hspans]
        exact ⟨data, hdata, fun _ => hfault, (output?_of_kept htext (Bool.not_eq_true _ ▸ hkept)).symm⟩
      have hwrite := (h.write_ensures hy).mono (fun _ ht => ht) (fun _ _ ht => ht) fun e t he =>
        (reports_of_untagged he : Reports keep before source (d ++ names) done f e t)
      exact (hparent.bind fun _ => hwrite) t rfl

end OneFile

/-! ### Mirroring an exercise -/

/-- Whatever bound on the nesting is large enough, all files are visited. -/
theorem visited_eq (hs : s.Sound) {levels : Nat} (hlevels : s.files.height < levels) (source : Path) :
    visited s levels source = visited s (s.files.height + 1) source :=
  visited_congr hs (fun loc _ => by omega) fun loc _ => by omega

/-- Deriving is a walk, after a note. -/
theorem perform_process (keep : SpanFilter) (source target : Path) (s : Session) :
    ∃ log, (process keep source target).perform s =
      (foldFiles (fun _ file => mirrorFile keep file (mirrored source target file)) (nesting s.files target) ()
        source).perform { s with log := log } := by
  unfold process
  rw [perform_bind, perform_note]
  simp only
  rw [perform_bind, perform_get]
  exact ⟨_, rfl⟩

/-- From a path with a zero nothing is derived: it names no directory. -/
theorem perform_process_hasZero (keep : SpanFilter) (target : Path) (s : Session) (hz : source.hasZero = true) :
    ∃ log, (process keep source target).perform s =
      (if s.locked.contains source then .ok () else .error .zeroInPath, { s with log := log }) := by
  obtain ⟨log, hrun⟩ := perform_process keep source target s
  obtain ⟨k, hk⟩ : ∃ k, nesting s.files target = k + 1 := ⟨4 * s.files.height + 2 * target.parts.length + 3, rfl⟩
  rw [hrun, hk]
  cases hlocked : s.locked.contains source with
  | true =>
    exact perform_foldFiles_locked (s := { s with log := log }) (p := source)
      (fun _ file => mirrorFile keep file (mirrored source target file)) hlocked k ()
  | false =>
    exact ⟨log, perform_foldFiles_hasZero (s := { s with log := log })
      (fun _ file => mirrorFile keep file (mirrored source target file)) hz hlocked k ()⟩

section Walk

variable {levels : Nat} {rest : List Path}

/-- It is the turn of the next file of a walk. -/
private theorem turn_of_split (hs : s.Sound) (hq : Destination s target known d names)
    (hp : Undisturbed s source (d ++ names.take 1)) (hz : source.hasZero = false)
    (hsplit : visited s levels source = done ++ f :: rest) (ht : Mirrored keep s t source (d ++ names) done) :
    ∃ init c, Turn keep s source target known d names done f (mirrored source target f) init c t := by
  have hmem : f ∈ visited s levels source := by
    rw [hsplit]
    simp
  have hdone : ∀ g ∈ done, g ∈ visited s levels source := by
    intro g hg
    rw [hsplit]
    exact List.mem_append_left _ hg
  obtain ⟨init, c, -, hf, hproper, -⟩ := exists_of_mem_visited hs hmem
  have hapart : Apart source done (init ++ [c]) := by
    intro rel hrel hprefix
    rw [hf] at hmem
    rcases hprefix with hprefix | hprefix
    · exact eq_of_prefix_of_mem_visited hs (hdone _ hrel) hmem hprefix
    · exact (eq_of_prefix_of_mem_visited hs hmem (hdone _ hrel) hprefix).symm
  have hvisits : ∀ rel, source.append rel ∈ done ++ [f] → Visits s source rel := by
    intro rel hrel
    have hmem : source.append rel ∈ visited s levels source := by
      rw [hsplit, List.append_cons]
      exact List.mem_append_left _ hrel
    exact visits_of_mem_visited hmem
  have himage : mirrored source target f = target.append (init ++ [c]) := by
    rw [hf, mirrored_append]
  exact ⟨init, c, hs, hq, hp, hz, hf, himage, hproper, hapart, hvisits, ht⟩

/-- Until the first failure, a walk that does each file in its turn does file after file. -/
theorem walk_ensures {E : List Path → Path → Failure → Session → Prop} {visit : Path → Path → Action Unit}
    (hs : s.Sound) (hq : Destination s target known d names) (hp : Undisturbed s source (d ++ names.take 1))
    (hz : source.hasZero = false) (hvisit : DoesTurns keep s source target known d names E visit) (levels : Nat) :
    Ensures (fun t => Mirrored keep s t source (d ++ names) [])
      (foldFiles (fun _ file => visit file (mirrored source target file)) levels () source)
      (fun _ t => Mirrored keep s t source (d ++ names) (visited s levels source))
      (fun e t => ∃ done f rest, visited s levels source = done ++ f :: rest ∧ E done f e t) := by
  have hwalk := foldFiles_ensures hs hz (fun _ file => visit file (mirrored source target file))
    (visited s levels source) (fun done _ t => Mirrored keep s t source (d ++ names) done)
    (fun done _ t ht => hp t (ht.grown hs hq)) (fun done _ t record ht => ht.log _)
    (E := fun e t => ∃ done f rest, visited s levels source = done ++ f :: rest ∧ E done f e t)
    (fun done f rest _ hsplit => ?_) levels [] (by simp) [] [] (by simp) ()
  · rw [Path.append_nil] at hwalk
    exact hwalk
  refine Ensures.of_each fun t ht => ?_
  obtain ⟨init, c, hturn⟩ := turn_of_split hs hq hp hz hsplit ht
  exact (hvisit.ensures _ _ _ _ _ _ hturn).mono (fun _ ht => ht) (fun _ _ ht => ht) fun e t ht => ⟨done, f, rest, hsplit, ht⟩

end Walk

/-- Deriving mirrors the files that are visited, up to the first failure. -/
theorem process_ends {r : Except Failure Unit} (hs : s.Sound) (hq : Destination s target known d names)
    (hp : Undisturbed s source (d ++ names.take 1)) (hz : source.hasZero = false)
    (h : (process keep source target).perform s = (r, t)) :
    Ends (fun _ t => Mirrored keep s t source (d ++ names) (visited s (s.files.height + 1) source))
      (fun e t => ∃ done f rest, visited s (s.files.height + 1) source = done ++ f :: rest ∧
        Reports keep s source (d ++ names) done f e t) (r, t) := by
  obtain ⟨log, hrun⟩ := perform_process keep source target s
  rw [hrun] at h
  have hlevels : visited s (nesting s.files target) source = visited s (s.files.height + 1) source :=
    visited_eq hs (by unfold nesting; omega) source
  have hends := (walk_ensures hs hq hp hz mirrorFile_doesTurns (nesting s.files target)).ends
    ((Mirrored.start hs).log log) h
  rwa [hlevels] at hends

/-- Whatever the path of the exercise is, deriving it without failure mirrors the files that are visited. -/
theorem mirrored_of_process (hs : s.Sound) (hq : Destination s target known d names)
    (hp : Undisturbed s source (d ++ names.take 1)) (h : (process keep source target).perform s = (.ok (), t)) :
    Mirrored keep s t source (d ++ names) (visited s (s.files.height + 1) source) := by
  by_cases hz : source.hasZero = true
  · obtain ⟨log, hrun⟩ := perform_process_hasZero keep target s hz
    rw [visited_of_nowhere fun loc hl => Bool.false_ne_true ((hl.hasZero hs).symm.trans hz),
      ← (Prod.mk.inj (hrun.symm.trans h)).2]
    exact (Mirrored.start hs).log log
  · exact process_ends hs hq hp (Bool.not_eq_true _ ▸ hz) h

/-- Deriving writes exactly the mirror of the files that a walk enumerates; if it fails with a broken tag, the mirror
of the files in front of the file with this tag. -/
theorem process_mirrors {r : Except Failure Unit} (hs : s.Sound) (hq : Destination s target known d names)
    (hp : Undisturbed s source (d ++ names.take 1)) (h : (process keep source target).perform s = (r, t)) :
    (r = .ok () → ∃ fs, ((files source).perform s).1 = .ok fs ∧ Mirrored keep s t source (d ++ names) fs) ∧
      ∀ fault path, r = .error (.tags fault path) → ∃ done f rest,
        ((files source).perform s).1 = .ok (done ++ f :: rest) ∧ path = some f ∧ Faulty s f fault ∧
          Mirrored keep s t source (d ++ names) done := by
  by_cases hz : source.hasZero = true
  · obtain ⟨log, hrun⟩ := perform_process_hasZero keep target s hz
    obtain ⟨rfl, rfl⟩ := Prod.mk.inj (hrun.symm.trans h)
    split
    · rename_i hlocked
      obtain ⟨log', hfiles⟩ := perform_foldFiles_locked (fun acc p => return acc ++ [p]) hlocked s.files.height []
      refine ⟨fun _ => ⟨[], ?_, (Mirrored.start hs).log log⟩, nofun⟩
      rw [perform_files, hfiles]
    · exact ⟨nofun, nofun⟩
  · have hz : source.hasZero = false := Bool.not_eq_true _ ▸ hz
    rw [files_eq hs hz]
    refine ⟨fun he => ?_, fun fault path he => ?_⟩
    · subst he
      exact ⟨_, rfl, process_ends hs hq hp hz h⟩
    · subst he
      obtain ⟨done, f, rest, hsplit, hreports⟩ := process_ends hs hq hp hz h
      exact ⟨done, f, rest, by rw [hsplit], hreports fault path rfl⟩

/-! ### Runs -/

/-- Two exercises and a directory with a copy of a file of each kind.  One has a binary file, a file of the solution,
a stub and a hidden directory, the other a broken tag in its second file. -/
def sampleExercises : Session where
  workingDir := []
  scratch := ["tmp"]
  files := ⟨[(["good"], .directory), (["good", ".git"], .directory), (["good", ".git", "x.c"], .file [] false),
    (["good", "logo"], .file [0, 255] true), (["good", "m.c"], .file (Bytes.ofString "// SOLUTION FILE\n") false),
    (["good", "n"], .directory), (["good", "n", "s.c"], .file (Bytes.ofString "// STUB: a\n") false),
    (["bad"], .directory), (["bad", "a.c"], .file [98] false),
    (["bad", "z.c"], .file (Bytes.ofString "// END SOLUTION\n") false),
    (["out"], .directory), (["out", "logo"], .file [1] true), (["out", "m.c"], .file [2] false)]⟩

theorem sampleExercises_sound : sampleExercises.Sound :=
  ⟨Files.wellFormed_of_entries (by decide +kernel), by decide +kernel⟩

theorem sampleExercises_noLink (loc : Location) (target : String) :
    sampleExercises.files.get? loc ≠ some (.link target) := Files.get?_ne_link (by decide +kernel) loc target

theorem sampleExercises_destination :
    Destination sampleExercises (Location.path ["out"]) (Location.path ["out"]) ["out"] [] where
  path := by rw [Path.append_nil]
  leads := leadsTo_path sampleExercises_sound (by decide +kernel)
  named _ hc := absurd hc List.not_mem_nil
  noLink rel target := sampleExercises_noLink _ target

theorem sampleExercises_undisturbed {name : String} (h : sampleExercises.files.get? [name] = some .directory)
    (hname : name ≠ "out") : Undisturbed sampleExercises (Location.path [name]) ["out"] := by
  refine undisturbed_of_noLink (leadsTo_path sampleExercises_sound h) (fun rel => sampleExercises_noLink _) ?_ ?_
  · exact fun hp => hname (by simpa using hp)
  · exact fun hp => hname (by simpa [eq_comm] using hp)

/-- Whether a run has failed with a broken tag. -/
private def isTagged : Except Failure Unit → Bool
  | .error (.tags _ _) => true
  | _ => false

private theorem eq_tags_of_isTagged {r : Except Failure Unit} (h : isTagged r = true) :
    ∃ fault path, r = .error (.tags fault path) := by
  unfold isTagged at h
  split at h
  · exact ⟨_, _, rfl⟩
  · cases h

theorem sampleExercises_mirrored :
    (∃ fs t, ((files (Location.path ["good"])).perform sampleExercises).1 = .ok fs ∧
      Mirrored SpanFilter.stub sampleExercises t (Location.path ["good"]) ["out"] fs) ∧
    ∃ done f rest t, ((files (Location.path ["bad"])).perform sampleExercises).1 = .ok (done ++ f :: rest) ∧
      Mirrored SpanFilter.stub sampleExercises t (Location.path ["bad"]) ["out"] done := by
  have hgood : ((process SpanFilter.stub (Location.path ["good"]) (Location.path ["out"])).perform sampleExercises).1 =
      .ok () := by decide +kernel
  have hbad : isTagged ((process SpanFilter.stub (Location.path ["bad"]) (Location.path ["out"])).perform
      sampleExercises).1 = true := by decide +kernel
  obtain ⟨t, ht⟩ := exists_perform_eq hgood
  obtain ⟨fault, path, hfault⟩ := eq_tags_of_isTagged hbad
  obtain ⟨u, hu⟩ := exists_perform_eq hfault
  have hout := sampleExercises_destination
  obtain ⟨fs, hfs, hmirrored⟩ := (process_mirrors sampleExercises_sound hout
    (sampleExercises_undisturbed (by decide +kernel) (by decide)) ht).1 rfl
  obtain ⟨done, f, rest, hsplit, -, -, hmirrored'⟩ := (process_mirrors sampleExercises_sound hout
    (sampleExercises_undisturbed (by decide +kernel) (by decide)) hu).2 fault path rfl
  exact ⟨⟨fs, t, hfs, hmirrored⟩, done, f, rest, u, hsplit, hmirrored'⟩

/-- An exercise with a link to a file of the directory `out`, and one without links. -/
def sampleTrees : Session where
  workingDir := []
  scratch := ["tmp"]
  files := ⟨[(["linked"], .directory), (["linked", "a.c"], .file [1] false), (["linked", "b.c"], .link "../out/a.c"),
    (["plain"], .directory), (["plain", "a.c"], .file [1] false), (["out"], .directory), (["out", "a.c"], .file [2] false)]⟩

/-- The mirror image of a link is what has been written where it leads by then, and `..` behind a missing name makes a
directory around nothing. -/
theorem sampleTrees_not_mirrored :
    let linked := Location.path ["linked"]
    let out := Location.path ["out"]
    let around : Path := ⟨.root, ["new", "..", "out"]⟩
    let run := (process SpanFilter.solution linked out).perform sampleTrees
    let run' := (process SpanFilter.solution (Location.path ["plain"]) around).perform sampleTrees
    (sampleTrees.files.get? ["out"] = some .directory ∧ sampleTrees.files.names ["out"] = ["a.c"] ∧
      sampleTrees.files.get? ["out", "a.c"] = some (.file [2] false)) ∧
    (run.1 = .ok () ∧ ((files linked).perform sampleTrees).1 = .ok [linked.child "a.c", linked.child "b.c"] ∧
      Yields SpanFilter.solution sampleTrees (linked.child "b.c") (some [2]) ∧
      run.2.files.get? ["out", "b.c"] = some (.file [1] false)) ∧
    (run'.1 = .ok () ∧ ((files (Location.path ["plain"])).perform sampleTrees).1 = .ok [Location.path ["plain", "a.c"]] ∧
      run'.2.files.get? ["out", "a.c"] = some (.file [1] false) ∧ sampleTrees.files.get? ["new"] = none ∧
      run'.2.files.get? ["new"] = some .directory) := by
  refine ⟨by decide +kernel, ⟨by decide +kernel, by decide +kernel, ?_, by decide +kernel⟩, by decide +kernel⟩
  exact ⟨[2], by decide +kernel, fun _ => by decide +kernel, by decide +kernel⟩

end Handout.Exercise
