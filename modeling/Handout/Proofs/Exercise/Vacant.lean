import Handout.Proofs.Exercise.Unhindered

/-!
# Deriving into an empty directory

In an empty directory nothing stands in the way of the mirror of an exercise (`staysClear_of_vacant`).  So deriving
succeeds as soon as every file can be read and has no broken tag (`perform_process_vacant`), and the directory then
holds the written files, the directories around them, and nothing else (`Mirrored.file`, `Mirrored.directory`,
`Mirrored.cases`).
-/

namespace Handout

namespace Session

variable {s t : Session} {p q : Path} {d e : Location} {rel : List String}

/-- A path that leads to an empty directory. -/
structure Vacant (s : Session) (p : Path) (d : Location) : Prop where
  leads : s.LeadsTo p d
  empty : s.files.names d = []

theorem Vacant.get?_eq_none (h : Vacant s p d) (hs : s.Sound) (hrel : rel ≠ []) : s.files.get? (d ++ rel) = none := by
  obtain ⟨c, rest, rfl⟩ := List.exists_cons_of_ne_nil hrel
  have hentry : s.files.get? (d ++ [c]) = none := by
    by_contra hn
    have hc := Files.mem_names.2 hn
    rw [h.empty] at hc
    cases hc
  by_cases hrest : rest = []
  · rw [hrest, hentry]
  · have hbelow := hs.files.get?_below (by rw [hentry]; exact nofun) hrest
    rwa [List.append_assoc] at hbelow

theorem Vacant.noLink (h : Vacant s p d) (hs : s.Sound) (rel : List String) (target : String) :
    s.files.get? (d ++ rel) ≠ some (.link target) := by
  by_cases hrel : rel = []
  · rw [hrel, List.append_nil, h.leads.directory hs]
    exact nofun
  · rw [h.get?_eq_none hs hrel]
    exact nofun

/-- Files can be put into an empty directory. -/
theorem Vacant.destination (h : Vacant s p d) (hs : s.Sound) : Destination s p p d [] where
  path := (Path.append_nil p).symm
  leads := h.leads
  named _ hc := absurd hc List.not_mem_nil
  noLink rel target := by
    rw [List.take_nil, List.append_nil]
    exact h.noLink hs rel target

/-- Of two empty directories none is in the other one. -/
theorem Vacant.not_prefix (h : Vacant s p d) (h' : Vacant s q e) (hs : s.Sound) (hne : d ≠ e) : ¬ d <+: e := by
  rintro ⟨rel, rfl⟩
  by_cases hrel : rel = []
  · rw [hrel, List.append_nil] at hne
    exact hne rfl
  · have hdir := h'.leads.directory hs
    rw [h.get?_eq_none hs hrel] at hdir
    cases hdir

/-- An empty directory stays empty when something is stored elsewhere. -/
theorem Vacant.grown (h : Vacant s p d) (h' : Vacant s q e) (hs : s.Sound) (hne : d ≠ e) (ht : Grown s t e) :
    Vacant t p d := by
  refine ⟨ht.leadsTo h.leads, List.eq_nil_iff_forall_not_mem.2 fun c hc => Files.mem_names.1 hc ?_⟩
  rw [ht.outside, h.get?_eq_none hs (List.cons_ne_nil _ _)]
  intro hp
  rcases List.prefix_concat_iff.1 hp with rfl | hp
  · have hdir := h'.leads.directory hs
    rw [h.get?_eq_none hs (List.cons_ne_nil _ _)] at hdir
    cases hdir
  · exact h'.not_prefix h hs hne.symm hp

end Session

namespace Exercise

open Handout.Action Session

variable {keep : SpanFilter} {s t u before : Session} {source target f g : Path} {place : Location} {done : List Path}
  {rel init : List String} {c : String} {data : Bytes}

/-! ### The mirror in an empty directory -/

theorem Mirrored.file (h : Mirrored keep before s source place done) (hb : before.Sound)
    (hv : Vacant before target place) (hrel : rel ≠ []) (hw : Writes keep before source done rel data) :
    s.files.get? (place ++ rel) = some (.file data false) := by
  obtain ⟨flag, hflag, hstored⟩ := h.written rel data hw
  rcases hflag with ⟨-, rfl⟩ | ⟨old, hold⟩
  · exact hstored
  · rw [hv.get?_eq_none hb hrel] at hold
    cases hold

/-- Something that is in the directory is a written file, or a directory around one. -/
theorem Mirrored.cases (h : Mirrored keep before s source place done) (hb : before.Sound)
    (hv : Vacant before target place) (hrel : rel ≠ []) (hn : s.files.get? (place ++ rel) ≠ none) :
    (∃ data, Writes keep before source done rel data) ∨ s.files.get? (place ++ rel) = some .directory ∧
      ∃ rel' data, Writes keep before source done rel' data ∧ rel <+: rel'.dropLast := by
  by_cases hw : ∃ data, Writes keep before source done rel data
  · exact .inl hw
  have hfree : ∀ rel' data, Writes keep before source done rel' data → place ++ rel ≠ place ++ rel' := by
    intro rel' data hw' he
    rw [← List.append_cancel_left he] at hw'
    exact hw ⟨data, hw'⟩
  rcases h.others _ hfree with hsame | ⟨-, hdir, rel', data, hw', hp⟩
  · rw [hsame, hv.get?_eq_none hb hrel] at hn
    exact absurd rfl hn
  · exact .inr ⟨hdir, rel', data, hw', (List.prefix_append_right_inj place).1 hp⟩

theorem Mirrored.directory (h : Mirrored keep before s source place done) {rel' : List String}
    (hw : Writes keep before source done rel' data) (hp : rel <+: rel'.dropLast) (hrel' : rel' ≠ []) :
    s.files.get? (place ++ rel) = some .directory :=
  h.overlaid.directory hw hrel' ((List.prefix_append_right_inj place).2 hp)

/-! ### A file in its turn -/

section Turns

variable (h : Turn keep before source target target place [] done f g init c s) (hv : Vacant before target place)

include h hv

/-- No file stands where a directory is to be. -/
private theorem Turn.free (hm : Mirrored keep before s source place done) : ¬ Blocked (s.files.content place) init := by
  rintro ⟨first, hfirst, hn, hd⟩
  have hne : first ≠ [] := by
    rintro rfl
    refine hd ?_
    unfold Files.content
    rw [List.append_nil]
    exact (h.grown.leadsTo hv.leads).directory hm.sound
  rcases hm.cases h.sound hv hne hn with ⟨data, hw⟩ | ⟨hdir, -⟩
  · have hlast : first = init ++ [c] := h.apart first hw.1 (.inl (hfirst.trans (List.prefix_append _ _)))
    exact not_concat_prefix_self init c (hlast ▸ hfirst)
  · exact hd hdir

/-- In the place of the file there is nothing, or what an equal file has left. -/
private theorem Turn.flagged (hm : Mirrored keep before s source place done) :
    ∃ flag, Flagged (s.files.get? (place ++ (init ++ [c]))) flag := by
  by_cases hn : s.files.get? (place ++ (init ++ [c])) = none
  · exact ⟨false, .inl ⟨hn, rfl⟩⟩
  rcases hm.cases h.sound hv (by simp) hn with ⟨data, hw⟩ | ⟨-, rel', data, hw, hp⟩
  · obtain ⟨flag, -, hstored⟩ := hm.written _ _ hw
    exact ⟨flag, .inr ⟨data, hstored⟩⟩
  · have hlast : rel' = init ++ [c] := h.apart rel' hw.1 (.inr (hp.trans (List.dropLast_prefix _)))
    rw [hlast, List.dropLast_concat] at hp
    exact absurd hp (not_concat_prefix_self init c)

end Turns

/-- In an empty directory nothing comes to be in the way. -/
theorem staysClear_of_vacant (hv : Vacant before target place) :
    StaysClear keep before source target target place [] := by
  intro done f g init c s data h _
  have hm := h.mirrored
  rw [List.append_nil] at hm
  refine ⟨fun x hx => h.proper x (List.mem_append_left _ hx), h.free hv hm, ?_⟩
  rw [List.nil_append, List.append_assoc]
  exact h.flagged hv hm

/-! ### The whole exercise -/

/-- Deriving into an empty directory succeeds if every file can be read and has no broken tag. -/
theorem perform_process_vacant (hs : s.Sound) (hv : Vacant s target place) (hp : Undisturbed s source place)
    (hz : source.hasZero = false)
    (hyields : ∀ f ∈ visited s (s.files.height + 1) source, ∃ out, Yields keep s f out) :
    ∃ t, (process keep source target).perform s = (.ok (), t) ∧
      Mirrored keep s t source place (visited s (s.files.height + 1) source) := by
  have hrun := perform_process_unhindered hs (hv.destination hs) (by rwa [List.take_nil, List.append_nil]) hz hyields
    (staysClear_of_vacant hv)
  rwa [List.append_nil] at hrun

end Exercise

end Handout
