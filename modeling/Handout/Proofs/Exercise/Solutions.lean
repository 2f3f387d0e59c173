import Handout.Proofs.Exercise.Unhindered

/-!
# Solutions of several exercises

The solutions of several exercises are derived one after the other into one directory.  What an exercise supplies
(`Supplies`) is known before the run, as long as no exercise is disturbed by what is stored for another one.  So a run
lays the files of all exercises over what was stored before, and of a file that several exercises supply the last one
counts (`Supplied`).  If one order of the exercises succeeds, so does every other one, since no file of one exercise
can be in the way of another exercise (`perform_prepareSolution_of_overlaid`); where no file is supplied twice, the
result is the same, too.
-/

namespace Handout.Exercise

open Handout.Action Session

variable {keep : SpanFilter} {s t u w : Session} {source target known f : Path} {d : Location} {names rel : List String}
  {sources : List Path} {data : Bytes} {out : Option Bytes} {W : List String → Bytes → Prop}

/-! ### What an exercise supplies -/

/-- An exercise supplies a file of this content. -/
def Supplies (keep : SpanFilter) (s : Session) (source : Path) (rel : List String) (data : Bytes) : Prop :=
  ∃ fs, ((files source).perform s).1 = .ok fs ∧ Writes keep s source fs rel data

/-- The files of an exercise can be enumerated and read, and have no broken tags. -/
def Derivable (keep : SpanFilter) (s : Session) (source : Path) : Prop :=
  ∃ fs, ((files source).perform s).1 = .ok fs ∧ ∀ f ∈ fs, ∃ out, Yields keep s f out

theorem Visits.leadsTo (h : Visits s source rel) : ∃ loc, s.LeadsTo source loc := by
  cases h with
  | file hc =>
    obtain ⟨loc, hl, -⟩ := mem_sortedNames (List.mem_filter.1 hc).1
    exact ⟨loc, hl⟩
  | within hc =>
    obtain ⟨loc, hl, -⟩ := mem_sortedNames (mem_of_mem_openNames hc)
    exact ⟨loc, hl⟩

theorem append_mem_visited (hs : s.Sound) :
    source.append rel ∈ visited s (s.files.height + 1) source ↔ Visits s source rel := by
  refine ⟨visits_of_mem_visited, fun hv => ?_⟩
  rw [← visited_eq hs (by omega : s.files.height < rel.length + s.files.height + 1) source]
  exact mem_visited_iff.2 ⟨rel, rfl, hv, by omega⟩

/-- The files of an exercise can be enumerated unless its path has a zero character. -/
theorem files_eq_ok_iff (hs : s.Sound) {fs : List Path} : ((files source).perform s).1 = .ok fs ↔
    (source.hasZero = true → s.locked.contains source = true) ∧ fs = visited s (s.files.height + 1) source := by
  by_cases hz : source.hasZero = true
  · rw [visited_of_nowhere fun loc hl => Bool.false_ne_true ((hl.hasZero hs).symm.trans hz), perform_files]
    cases hlocked : s.locked.contains source with
    | true =>
      obtain ⟨log, hrun⟩ := perform_foldFiles_locked (fun acc q => return acc ++ [q]) hlocked s.files.height []
      rw [hrun]
      exact ⟨fun he => ⟨fun _ => rfl, (Except.ok.inj he).symm⟩, fun ⟨_, he⟩ => he ▸ rfl⟩
    | false =>
      rw [perform_foldFiles_hasZero _ hz hlocked]
      exact ⟨nofun, fun ⟨he, _⟩ => nomatch he hz⟩
  · rw [Bool.not_eq_true] at hz
    rw [files_eq hs hz, hz]
    exact ⟨fun he => ⟨nofun, (Except.ok.inj he).symm⟩, fun ⟨_, he⟩ => he ▸ rfl⟩

theorem supplies_iff (hs : s.Sound) :
    Supplies keep s source rel data ↔ Visits s source rel ∧ Yields keep s (source.append rel) (some data) := by
  unfold Supplies Writes
  constructor
  · rintro ⟨fs, hfs, hmem, hy⟩
    rw [((files_eq_ok_iff hs).1 hfs).2, append_mem_visited hs] at hmem
    exact ⟨hmem, hy⟩
  · -- where something is visited the path leads to a directory, so it has no zero character
    rintro ⟨hv, hy⟩
    obtain ⟨loc, hl⟩ := hv.leadsTo
    exact ⟨_, files_eq hs (hl.hasZero hs), (append_mem_visited hs).2 hv, hy⟩

theorem derivable_iff (hs : s.Sound) : Derivable keep s source ↔
    (source.hasZero = true → s.locked.contains source = true) ∧
      ∀ rel, Visits s source rel → ∃ out, Yields keep s (source.append rel) out := by
  unfold Derivable
  constructor
  · rintro ⟨fs, hfs, hy⟩
    obtain ⟨hlocked, rfl⟩ := (files_eq_ok_iff hs).1 hfs
    exact ⟨hlocked, fun rel hv => hy _ ((append_mem_visited hs).2 hv)⟩
  · rintro ⟨hlocked, hy⟩
    refine ⟨_, (files_eq_ok_iff hs).2 ⟨hlocked, rfl⟩, fun f hf => ?_⟩
    obtain ⟨rel, rfl, hv, -⟩ := mem_visited_iff.1 hf
    exact hy rel hv

theorem Supplies.ne_nil (hs : s.Sound) (h : Supplies keep s source rel data) : rel ≠ [] := ((supplies_iff hs).1 h).1.ne_nil

/-! ### Where the same is shown -/

theorem yields_iff_of_shows (h : s.Shows f t) : Yields keep t f out ↔ Yields keep s f out := by
  unfold Yields
  rw [h.content?]

private theorem yields_iff_of_visits (hs : s.Sound) (h : s.Shows source t) (hv : Visits s source rel) :
    Yields keep t (source.append rel) out ↔ Yields keep s (source.append rel) out :=
  yields_iff_of_shows (h.append fun c hc => (hv.proper hs c hc).plain)

theorem supplies_iff_of_shows (hs : s.Sound) (h : s.Shows source t) :
    Supplies keep t source rel data ↔ Supplies keep s source rel data := by
  rw [supplies_iff hs, supplies_iff h.sound, visits_iff_of_shows hs h]
  exact and_congr_right fun hv => yields_iff_of_visits hs h hv

theorem derivable_iff_of_shows (hs : s.Sound) (h : s.Shows source t) :
    Derivable keep t source ↔ Derivable keep s source := by
  rw [derivable_iff hs, derivable_iff h.sound, h.locked]
  refine and_congr_right fun _ => forall_congr' fun rel => ?_
  rw [visits_iff_of_shows hs h]
  exact imp_congr_right fun hv => exists_congr fun out => yields_iff_of_visits hs h hv

/-! ### One exercise -/

/-- An exercise that is derived without failure is derivable, and what it supplies has been written. -/
theorem overlaid_of_process (hs : s.Sound) (hq : Destination s target known d names)
    (hp : Undisturbed s source (d ++ names.take 1)) (h : (process keep source target).perform s = (.ok (), t)) :
    Derivable keep s source ∧ Overlaid s t (d ++ names) (Supplies keep s source) := by
  obtain ⟨fs, hfs, hmirrored⟩ := (process_mirrors hs hq hp h).1 rfl
  refine ⟨⟨fs, hfs, fun f hf => ?_⟩, hmirrored.overlaid.congr fun rel data => ⟨fun hw => ⟨fs, hfs, hw⟩, ?_⟩⟩
  · obtain ⟨-, out, -, hy⟩ := hmirrored.yields f hf
    exact ⟨out, hy⟩
  · rintro ⟨fs', hfs', hw⟩
    obtain rfl := Except.ok.inj (hfs'.symm.trans hfs)
    exact hw

/-- A derivable exercise can be derived if nothing is in the way. -/
theorem perform_process_derivable (hs : s.Sound) (hq : Destination s target known d names)
    (hp : Undisturbed s source (d ++ names.take 1)) (hd : Derivable keep s source)
    (hclear : StaysClear keep s source target known d names) :
    ∃ t, (process keep source target).perform s = (.ok (), t) ∧ Overlaid s t (d ++ names) (Supplies keep s source) := by
  obtain ⟨hlocked, hyields⟩ := (derivable_iff hs).1 hd
  have hok : ∃ t, (process keep source target).perform s = (.ok (), t) := by
    by_cases hz : source.hasZero = true
    · obtain ⟨log, hrun⟩ := perform_process_hasZero keep target s hz
      rw [hlocked hz, if_pos rfl] at hrun
      exact ⟨_, hrun⟩
    · obtain ⟨t, ht, -⟩ := perform_process_unhindered hs hq hp (Bool.not_eq_true _ ▸ hz) (fun f hf => by
        obtain ⟨rel, rfl, hv, -⟩ := mem_visited_iff.1 hf
        exact hyields rel hv) hclear
      exact ⟨t, ht⟩
  obtain ⟨t, ht⟩ := hok
  exact ⟨t, ht, (overlaid_of_process hs hq hp ht).2⟩

/-! ### One exercise after the other -/

/-- The content of a file that several exercises supply is that of the last one. -/
def Supplied (keep : SpanFilter) (s : Session) : List Path → List String → Bytes → Prop
  | [], _, _ => False
  | source :: rest, rel, data =>
    Supplied keep s rest rel data ∨ Supplies keep s source rel data ∧ ∀ data', ¬ Supplied keep s rest rel data'

theorem Supplied.exists_supplies (h : Supplied keep s sources rel data) :
    ∃ source ∈ sources, Supplies keep s source rel data := by
  induction sources with
  | nil => exact h.elim
  | cons source rest ih =>
    rcases h with h | ⟨h, -⟩
    · obtain ⟨source', hmem, hsupplies⟩ := ih h
      exact ⟨source', List.mem_cons_of_mem _ hmem, hsupplies⟩
    · exact ⟨source, List.mem_cons_self, h⟩

theorem exists_supplied (hmem : source ∈ sources) (h : Supplies keep s source rel data) :
    ∃ data', Supplied keep s sources rel data' := by
  induction sources with
  | nil => cases hmem
  | cons first rest ih =>
    by_cases hlater : ∃ data', Supplied keep s rest rel data'
    · exact hlater.imp fun _ => .inl
    · rcases List.mem_cons.1 hmem with rfl | hmem
      · exact ⟨data, .inr ⟨h, not_exists.1 hlater⟩⟩
      · exact absurd (ih hmem) hlater

/-- The last exercise that supplies a file decides about it. -/
theorem supplied_of_last {sooner later : List Path} (h : Supplies keep s source rel data)
    (hlast : ∀ source' ∈ later, ∀ data', ¬ Supplies keep s source' rel data') :
    Supplied keep s (sooner ++ source :: later) rel data := by
  induction sooner with
  | nil =>
    refine .inr ⟨h, fun data' hlater => ?_⟩
    obtain ⟨source', hmem, hsupplies⟩ := hlater.exists_supplies
    exact hlast source' hmem data' hsupplies
  | cons first sooner ih => exact .inl ih

/-- No two of the exercises supply the same file. -/
def Separate (keep : SpanFilter) (s : Session) (sources : List Path) : Prop :=
  sources.Pairwise fun source source' =>
    ∀ rel data data', Supplies keep s source rel data → ¬ Supplies keep s source' rel data'

/-- Where no file is supplied twice, all files that are supplied count. -/
theorem Separate.supplied_iff (h : Separate keep s sources) :
    Supplied keep s sources rel data ↔ ∃ source ∈ sources, Supplies keep s source rel data := by
  refine ⟨Supplied.exists_supplies, ?_⟩
  rintro ⟨source, hmem, hsupplies⟩
  obtain ⟨sooner, later, rfl⟩ := List.append_of_mem hmem
  refine supplied_of_last hsupplies fun source' hmem' data' => ?_
  exact (List.pairwise_cons.1 (List.pairwise_append.1 h).2.1).1 source' hmem' rel data data' hsupplies

theorem Separate.perm {sources' : List Path} (h : Separate keep s sources) (hp : sources'.Perm sources) :
    Separate keep s sources' := by
  refine (hp.pairwise_iff fun {source source'} hne rel data data' hsupplies hsupplies' => ?_).2 h
  exact hne rel data' data hsupplies' hsupplies

/-- It is the turn of an exercise when some files have been written. -/
structure Underway (s w : Session) (source target known : Path) (d : Location) (names : List String)
    (W : List String → Bytes → Prop) : Prop where
  sound : s.Sound
  destination : Destination s target known d names
  undisturbed : Undisturbed s source (d ++ names.take 1)
  overlaid : Overlaid s w (d ++ names) W

namespace Underway

variable (h : Underway s w source target known d names W)

include h

theorem grown : Grown s w (d ++ names.take 1) := h.overlaid.grown h.sound h.destination

theorem supplies_iff : Supplies keep w source rel data ↔ Supplies keep s source rel data :=
  supplies_iff_of_shows h.sound (h.undisturbed w h.grown)

/-- If the exercise is derived without failure, what it supplied at first has been written. -/
theorem overlaid_of_process (hrun : (process keep source target).perform w = (.ok (), t)) :
    Derivable keep s source ∧ Overlaid w t (d ++ names) (Supplies keep s source) := by
  obtain ⟨hderivable, hoverlaid⟩ := Exercise.overlaid_of_process h.overlaid.sound (h.destination.grown h.grown)
    (h.undisturbed.grown h.sound h.grown) hrun
  exact ⟨(derivable_iff_of_shows h.sound (h.undisturbed w h.grown)).1 hderivable,
    hoverlaid.congr fun _ _ => h.supplies_iff⟩

section Possible

variable {W' : List String → Bytes → Prop} (hall : Overlaid s u (d ++ names) W')
  (hsome : ∀ rel data, W rel data → ∃ data', W' rel data')
  (hsupplies : ∀ rel data, Supplies keep s source rel data → ∃ data', W' rel data')
  (hrel : ∀ rel data, W' rel data → rel ≠ [])

include hall hsome hsupplies hrel

/-- If the files that have been written and those of the exercise can be written together, nothing is in the way. -/
theorem staysClear : StaysClear keep w source target known d names := by
  intro done f g init c v data hturn hy
  -- what the turn of the file finds written is of the exercise itself or was there before it
  have hwrites : ∀ rel data, source.append rel ∈ done ++ [f] → Yields keep w (source.append rel) (some data) →
      ∃ data', W' rel data' := fun rel data hmem hy =>
    hsupplies rel data (h.supplies_iff.1 ((Exercise.supplies_iff h.overlaid.sound).2 ⟨hturn.visits rel hmem, hy⟩))
  rw [hturn.file] at hy hwrites
  obtain ⟨data', hw⟩ := hwrites (init ++ [c]) data (by simp) hy
  refine hall.unhindered (h.overlaid.trans hturn.mirrored.overlaid) (fun rel data hwritten => ?_) hrel hw
  rcases hwritten with ⟨hmem, hy⟩ | ⟨hwritten, -⟩
  · exact hwrites rel data (List.mem_append_left _ hmem) hy
  · exact hsome rel data hwritten

/-- Then the exercise can be derived. -/
theorem perform_process (hderivable : Derivable keep s source) :
    ∃ t, (process keep source target).perform w = (.ok (), t) ∧ Overlaid w t (d ++ names) (Supplies keep s source) := by
  obtain ⟨t, ht, -⟩ := perform_process_derivable h.overlaid.sound (h.destination.grown h.grown)
    (h.undisturbed.grown h.sound h.grown)
    ((derivable_iff_of_shows h.sound (h.undisturbed w h.grown)).2 hderivable) (h.staysClear hall hsome hsupplies hrel)
  exact ⟨t, ht, (h.overlaid_of_process ht).2⟩

end Possible

end Underway

/-! ### Several exercises -/

private theorem perform_prepareSolution_cons {rest : List Path}
    (h : (process SpanFilter.solution source target).perform w = (.ok (), t)) :
    (prepareSolution (source :: rest) target).perform w = (prepareSolution rest target).perform t :=
  perform_bind_ok h _

/-- Several exercises that are derived without failure are derivable, and what they supplied at first has been written. -/
theorem overlaid_of_prepareSolution (hs : s.Sound) (hq : Destination s target known d names)
    (hp : ∀ source ∈ sources, Undisturbed s source (d ++ names.take 1)) (hw : Overlaid s w (d ++ names) W)
    (h : (prepareSolution sources target).perform w = (.ok (), t)) :
    (∀ source ∈ sources, Derivable SpanFilter.solution s source) ∧
      Overlaid w t (d ++ names) (Supplied SpanFilter.solution s sources) := by
  -- the exercises are compared with what they were at first, whatever has been written by now
  induction sources generalizing w W with
  | nil =>
    obtain rfl : w = t := congrArg Prod.snd h
    exact ⟨fun _ hmem => absurd hmem List.not_mem_nil, .nothing hw.sound (fun _ _ => not_false) w.log⟩
  | cons source rest ih =>
    obtain ⟨⟨⟩, v, hv, hrest⟩ := ok_of_perform_bind h
    have hunderway : Underway s w source target known d names W := ⟨hs, hq, hp source List.mem_cons_self, hw⟩
    obtain ⟨hderivable, hoverlaid⟩ := hunderway.overlaid_of_process hv
    obtain ⟨hothers, hlast⟩ := ih (fun other hmem => hp other (List.mem_cons_of_mem _ hmem)) (hw.trans hoverlaid) hrest
    exact ⟨List.forall_mem_cons.2 ⟨hderivable, hothers⟩, hoverlaid.trans hlast⟩

/-- If all files of derivable exercises can be written together, the exercises can be derived one after the other. -/
theorem perform_prepareSolution_of_overlaid {W' : List String → Bytes → Prop} (hs : s.Sound)
    (hq : Destination s target known d names) (hp : ∀ source ∈ sources, Undisturbed s source (d ++ names.take 1))
    (hderivable : ∀ source ∈ sources, Derivable SpanFilter.solution s source)
    (hall : Overlaid s u (d ++ names) W') (hrel : ∀ rel data, W' rel data → rel ≠ [])
    (hsupplies : ∀ source ∈ sources, ∀ rel data, Supplies SpanFilter.solution s source rel data → ∃ data', W' rel data')
    (hw : Overlaid s w (d ++ names) W) (hsome : ∀ rel data, W rel data → ∃ data', W' rel data') :
    ∃ t, (prepareSolution sources target).perform w = (.ok (), t) ∧
      Overlaid w t (d ++ names) (Supplied SpanFilter.solution s sources) := by
  induction sources generalizing w W with
  | nil => exact ⟨w, rfl, .nothing hw.sound (fun _ _ => not_false) w.log⟩
  | cons source rest ih =>
    have hunderway : Underway s w source target known d names W := ⟨hs, hq, hp source List.mem_cons_self, hw⟩
    have hsource := hsupplies source List.mem_cons_self
    obtain ⟨v, hv, hoverlaid⟩ :=
      hunderway.perform_process hall hsome hsource hrel (hderivable source List.mem_cons_self)
    obtain ⟨t, ht, hlast⟩ := ih (fun other hmem => hp other (List.mem_cons_of_mem _ hmem))
      (fun other hmem => hderivable other (List.mem_cons_of_mem _ hmem))
      (fun other hmem => hsupplies other (List.mem_cons_of_mem _ hmem)) (hw.trans hoverlaid) fun rel data hwritten =>
        hwritten.elim (hsource rel data) fun hold => hsome rel data hold.1
    exact ⟨t, (perform_prepareSolution_cons hv).trans ht, hoverlaid.trans hlast⟩

/-- Solutions of several exercises are laid one over the other.  If deriving them succeeds, a file has the content of
the last exercise that supplies it; and in every order of the exercises it succeeds, too, with the same result if no
file is supplied twice. -/
theorem prepareSolution_overlays (hs : s.Sound) (hq : Destination s target known d names)
    (hp : ∀ source ∈ sources, Undisturbed s source (d ++ names.take 1))
    (h : (prepareSolution sources target).perform s = (.ok (), t)) :
    (∀ sooner source later rel data, sources = sooner ++ source :: later →
      Supplies SpanFilter.solution s source rel data →
      (∀ source' ∈ later, ∀ data', ¬ Supplies SpanFilter.solution s source' rel data') →
      ∃ flag, t.files.get? (d ++ names ++ rel) = some (.file data flag)) ∧
    ∀ sources', sources'.Perm sources → ∃ t', (prepareSolution sources' target).perform s = (.ok (), t') ∧
      (Separate SpanFilter.solution s sources → ∀ x, t'.files.get? x = t.files.get? x) := by
  have hstart : Overlaid s s (d ++ names) fun _ _ => False := .nothing hs (fun _ _ => not_false) s.log
  obtain ⟨hderivable, hoverlaid⟩ := overlaid_of_prepareSolution hs hq hp hstart h
  have hrel : ∀ rel data, Supplied SpanFilter.solution s sources rel data → rel ≠ [] := by
    intro rel data hw
    obtain ⟨source, -, hsupplies⟩ := hw.exists_supplies
    exact hsupplies.ne_nil hs
  refine ⟨fun sooner source later rel data hsplit hsupplies hlast => ?_, fun sources' hperm => ?_⟩
  · subst hsplit
    obtain ⟨flag, -, hstored⟩ := hoverlaid.written rel data (supplied_of_last hsupplies hlast)
    exact ⟨flag, hstored⟩
  · -- the run that succeeds tells that all files can be written together
    obtain ⟨t', ht', hoverlaid'⟩ := perform_prepareSolution_of_overlaid hs hq
      (fun source hmem => hp source (hperm.mem_iff.1 hmem)) (fun source hmem => hderivable source (hperm.mem_iff.1 hmem))
      hoverlaid hrel (fun source hmem rel data => exists_supplied (hperm.mem_iff.1 hmem)) hstart fun _ _ => False.elim
    refine ⟨t', ht', fun hseparate => hoverlaid.get?_eq (hoverlaid'.congr fun rel data => ?_) hrel⟩
    rw [hseparate.supplied_iff, (hseparate.perm hperm).supplied_iff]
    exact exists_congr fun source => and_congr_left fun _ => hperm.mem_iff

/-! ### Runs -/

/-- Three exercises, of which the first and the last one have a file of the same name, and a directory with such a
file. -/
def sampleOverlays : Session where
  workingDir := []
  scratch := ["tmp"]
  files := ⟨[(["one"], .directory), (["one", "m.c"], .file (Bytes.ofString "a\n") false), (["one", "n"], .directory),
    (["one", "n", "a.c"], .file (Bytes.ofString "a\n") false), (["two"], .directory), (["two", "n"], .directory),
    (["two", "n", "b.c"], .file (Bytes.ofString "b\n") false), (["three"], .directory),
    (["three", "m.c"], .file (Bytes.ofString "c\n") false), (["out"], .directory), (["out", "m.c"], .file [1] true)]⟩

theorem sampleOverlays_sound : sampleOverlays.Sound :=
  ⟨Files.wellFormed_of_entries (by decide +kernel), by decide +kernel⟩

theorem sampleOverlays_noLink (loc : Location) (target : String) :
    sampleOverlays.files.get? loc ≠ some (.link target) := Files.get?_ne_link (by decide +kernel) loc target

theorem sampleOverlays_destination :
    Destination sampleOverlays (Location.path ["out"]) (Location.path ["out"]) ["out"] [] where
  path := by rw [Path.append_nil]
  leads := leadsTo_path sampleOverlays_sound (by decide +kernel)
  named _ hc := absurd hc List.not_mem_nil
  noLink rel target := sampleOverlays_noLink _ target

theorem sampleOverlays_undisturbed {name : String} (hname : name ∈ ["one", "two", "three"]) :
    Undisturbed sampleOverlays (Location.path [name]) ["out"] := by
  have hdir : ∀ name ∈ ["one", "two", "three"], sampleOverlays.files.get? [name] = some .directory := by decide +kernel
  have hne : name ≠ "out" := by
    rintro rfl
    revert hname
    decide
  refine undisturbed_of_noLink (leadsTo_path sampleOverlays_sound (hdir name hname)) (fun rel => sampleOverlays_noLink _)
    (fun hp => hne (by simpa using hp)) fun hp => hne (by simpa [eq_comm] using hp)

theorem sampleOverlays_separate :
    Separate SpanFilter.solution sampleOverlays [Location.path ["one"], Location.path ["two"]] := by
  have hone : ((files (Location.path ["one"])).perform sampleOverlays).1 =
      .ok [Location.path ["one", "m.c"], Location.path ["one", "n", "a.c"]] := by decide +kernel
  have htwo : ((files (Location.path ["two"])).perform sampleOverlays).1 = .ok [Location.path ["two", "n", "b.c"]] := by
    decide +kernel
  refine List.pairwise_pair.2 ?_
  rintro rel data data' ⟨fs, hfs, hmem, -⟩ ⟨fs', hfs', hmem', -⟩
  obtain rfl := Except.ok.inj (hfs.symm.trans hone)
  obtain rfl := Except.ok.inj (hfs'.symm.trans htwo)
  obtain rfl : rel = ["n", "b.c"] := List.append_cancel_left (congrArg Path.parts (List.mem_singleton.1 hmem'))
  revert hmem
  decide

theorem sampleOverlays_overlaid :
    let run (names : List String) :=
      (prepareSolution (names.map fun name => Location.path [name]) (Location.path ["out"])).perform sampleOverlays
    (∃ t t', run ["one", "two"] = (.ok (), t) ∧ run ["two", "one"] = (.ok (), t') ∧
      ∀ x, t'.files.get? x = t.files.get? x) ∧
    ∃ t flag, run ["one", "two", "three"] = (.ok (), t) ∧
      t.files.get? ["out", "m.c"] = some (.file (Bytes.ofString "c\n") flag) := by
  intro run
  have hpair : (run ["one", "two"]).1 = .ok () := by decide +kernel
  have hall : (run ["one", "two", "three"]).1 = .ok () := by decide +kernel
  obtain ⟨t, ht⟩ := exists_perform_eq hpair
  obtain ⟨u, hu⟩ := exists_perform_eq hall
  have hundisturbed : ∀ names : List String, (∀ name ∈ names, name ∈ ["one", "two", "three"]) →
      ∀ source ∈ names.map fun name => Location.path [name],
        Undisturbed sampleOverlays source (["out"] ++ ([] : List String).take 1) := by
    intro names hnames source hmem
    obtain ⟨name, hname, rfl⟩ := List.mem_map.1 hmem
    exact sampleOverlays_undisturbed (hnames name hname)
  constructor
  · obtain ⟨t', ht', hsame⟩ := (prepareSolution_overlays sampleOverlays_sound sampleOverlays_destination
      (hundisturbed ["one", "two"] (by decide)) ht).2 _ (List.Perm.swap _ _ [])
    exact ⟨t, t', ht, ht', hsame sampleOverlays_separate⟩
  · obtain ⟨flag, hstored⟩ := (prepareSolution_overlays sampleOverlays_sound sampleOverlays_destination
      (hundisturbed ["one", "two", "three"] (by decide)) hu).1 [Location.path ["one"], Location.path ["two"]]
      (Location.path ["three"]) [] ["m.c"] (Bytes.ofString "c\n") rfl
      ⟨[Location.path ["three", "m.c"]], by decide +kernel, by decide +kernel, Bytes.ofString "c\n", by decide +kernel,
        fun _ => by decide +kernel, by decide +kernel⟩ fun _ hmem => absurd hmem List.not_mem_nil
    exact ⟨u, flag, hu, hstored⟩

/-- Exercises with a link to a file that another one supplies, and with a link to what is missing on a way over `..`. -/
def sampleDetours : Session where
  workingDir := []
  scratch := ["tmp"]
  files := ⟨[(["linked"], .directory), (["linked", "l.c"], .link "../out/x.c"), (["plain"], .directory),
    (["plain", "x.c"], .file [2] false), (["out"], .directory), (["out", "x.c"], .file [1] false),
    (["dangling"], .directory), (["dangling", "l.c"], .link "../new")]⟩

/-- A link shows what has been written by then, and making a directory on a way over `..` changes where links lead: so
the order of exercises counts, though no file is supplied twice. -/
theorem sampleDetours_differ :
    let run (names : List String) (target : Path) :=
      (prepareSolution (names.map fun name => Location.path [name]) target).perform sampleDetours
    let around : Path := ⟨.root, ["new", "..", "out"]⟩
    (sampleDetours.files.get? ["out"] = some .directory ∧ sampleDetours.files.names ["out"] = ["x.c"] ∧
      sampleDetours.files.get? ["out", "x.c"] = some (.file [1] false)) ∧
    (((files (Location.path ["linked"])).perform sampleDetours).1 = .ok [Location.path ["linked", "l.c"]] ∧
      ((files (Location.path ["plain"])).perform sampleDetours).1 = .ok [Location.path ["plain", "x.c"]] ∧
      (run ["linked", "plain"] (Location.path ["out"])).1 = .ok () ∧
      (run ["plain", "linked"] (Location.path ["out"])).1 = .ok () ∧
      (run ["linked", "plain"] (Location.path ["out"])).2.files.get? ["out", "l.c"] = some (.file [1] false) ∧
      (run ["plain", "linked"] (Location.path ["out"])).2.files.get? ["out", "l.c"] = some (.file [2] false)) ∧
    ((run ["plain", "dangling"] around).1 = .ok () ∧ (run ["dangling", "plain"] around).1 ≠ .ok ()) := by
  decide +kernel

end Handout.Exercise
