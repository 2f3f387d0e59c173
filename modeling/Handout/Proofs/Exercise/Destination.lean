import Handout.Exercise.Derive
import Handout.Proofs.Exercise.Walk
import Handout.Proofs.Files.Change

/-!
# Where derived files go

A `Destination` is a path at which files may be put.  What is stored there changes nothing of what an exercise shows
if the exercise is `Undisturbed`, for which it is enough that the two lie apart and the exercise has no links
(`undisturbed_of_noLink`).  Making the directory of a file makes nothing but what is missing on the way to it
(`makeDirectories_opens`), and it never fails with a broken tag.
-/

namespace Handout

theorem IsLeaf.ne_directory {node : Option Node} (h : IsLeaf node) : node ≠ some .directory := by
  rcases h with rfl | ⟨data, executable, rfl⟩ <;> simp

theorem IsLeaf.ne_link {node : Option Node} (h : IsLeaf node) (target : String) : node ≠ some (.link target) := by
  rcases h with rfl | ⟨data, executable, rfl⟩ <;> simp

namespace Session

variable {s t u : Session} {p known : Path} {d e top x : Location} {names : List String}

/-- Since `before`, only at a location and below it was anything stored, in the place of nothing or of files. -/
structure Grown (before s : Session) (top : Location) : Prop where
  only : s = { before with files := s.files, log := s.log }
  sound : s.Sound
  outside : ∀ x, ¬ top <+: x → s.files.get? x = before.files.get? x
  kept : ∀ x, IsLeaf (before.files.get? x) ∨ s.files.get? x = before.files.get? x
  noLink : ∀ rel target, s.files.get? (top ++ rel) ≠ some (.link target)

theorem Grown.directory (h : Grown s t top) (hx : s.files.get? x = some .directory) :
    t.files.get? x = some .directory := by
  rcases h.kept x with hleaf | hsame
  · exact absurd hx hleaf.ne_directory
  · rw [hsame, hx]

theorem Grown.workingDir (h : Grown s t top) : t.workingDir = s.workingDir := by rw [h.only]

theorem Grown.leadsTo (h : Grown s t top) (hl : s.LeadsTo p e) : t.LeadsTo p e := by
  refine hl.mono h.workingDir (fun x hx => h.directory hx) fun x target hx => ?_
  rcases h.kept x with hleaf | hsame
  · exact absurd hx (hleaf.ne_link target)
  · rw [hsame, hx]

theorem Grown.trans (h : Grown s t top) (h' : Grown t u top) : Grown s u top where
  only := h'.only.trans (congrArg (fun v : Session => { v with files := u.files, log := u.log }) h.only)
  sound := h'.sound
  outside x hx := (h'.outside x hx).trans (h.outside x hx)
  kept x := by
    rcases h.kept x with hleaf | hsame
    · exact .inl hleaf
    · rw [← hsame]
      exact h'.kept x
  noLink := h'.noLink

theorem Grown.of_cases (honly : t = { s with files := t.files, log := t.log }) (hsound : t.Sound)
    (hlink : ∀ rel target, s.files.get? (top ++ rel) ≠ some (.link target))
    (h : ∀ x, t.files.get? x = s.files.get? x ∨
      top <+: x ∧ IsLeaf (s.files.get? x) ∧ ∀ target, t.files.get? x ≠ some (.link target)) : Grown s t top where
  only := honly
  sound := hsound
  outside x hx := (h x).resolve_right fun hnew => hx hnew.1
  kept x := (h x).symm.imp_left fun hnew => hnew.2.1
  noLink rel target := by
    rcases h (top ++ rel) with hsame | ⟨-, -, hnew⟩
    · rw [hsame]
      exact hlink rel target
    · exact hnew target

/-- Whatever is stored at a location and below it, in the place of nothing or of files, what a path shows stays the
same: nothing leads from the path to the location or through it. -/
def Undisturbed (s : Session) (p : Path) (top : Location) : Prop := ∀ t, Grown s t top → s.Shows p t

theorem Undisturbed.grown (h : Undisturbed s p top) (hs : s.Sound) (ht : Grown s t top) : Undisturbed t p top :=
  fun u hu => ((h t ht).symm hs).trans (h u (ht.trans hu))

/-- Nothing leads from a directory without links to a location that lies neither in it nor around it. -/
theorem undisturbed_of_noLink (hl : s.LeadsTo p e)
    (hlink : ∀ rel target, s.files.get? (e ++ rel) ≠ some (.link target)) (hin : ¬ e <+: top) (haround : ¬ top <+: e) :
    Undisturbed s p top := by
  have hout : ∀ rel, ¬ top <+: e ++ rel := by
    intro rel h
    rcases List.prefix_or_prefix_of_prefix h (List.prefix_append e rel) with h | h
    · exact haround h
    · exact hin h
  intro t ht
  refine ⟨ht.sound, by rw [ht.only], fun names hp follow hq => ?_⟩
  obtain ⟨n, hn, hleads⟩ := hl
  obtain ⟨m, hm, hleads'⟩ := ht.leadsTo ⟨n, hn, hleads⟩
  have hfind : s.find follow (p.append names) = s.files.walk follow (maxLinks - n) e names :=
    Files.walk_of_leads hleads hn hq
  have hfind' : t.find follow (p.append names) = t.files.walk follow (maxLinks - m) e names :=
    Files.walk_of_leads hleads' hm hq
  rw [hfind, hfind']
  refine (Files.walk_congr hp (fun first target _ _ => hlink first target) fun first _ _ => ?_).symm
  exact (ht.outside _ (hout first)).symm

/-- Where files are to be put: from a path that leads to a directory some names lead on, and from the first of them
on there are no links. -/
structure Destination (s : Session) (target known : Path) (d : Location) (names : List String) : Prop where
  path : target = known.append names
  leads : s.LeadsTo known d
  named : ∀ c ∈ names, IsName c
  noLink : ∀ rel target, s.files.get? (d ++ names.take 1 ++ rel) ≠ some (.link target)

theorem Destination.grown (h : Destination s p known d names) (ht : Grown s t (d ++ names.take 1)) :
    Destination t p known d names := ⟨h.path, ht.leadsTo h.leads, h.named, ht.noLink⟩

/-- What is stored where files are to be put, or on the way there, is at the place that stays apart, or around it. -/
theorem Destination.within (h : Destination s p known d names) (hs : s.Sound) {y : Location} (hx : d ++ names <+: x)
    (hy : y <+: x) : d ++ names.take 1 <+: y ∨ s.files.get? y = some .directory := by
  have htop : d ++ names.take 1 <+: x := ((List.prefix_append_right_inj d).2 (List.take_prefix 1 names)).trans hx
  have hd := h.leads.directory hs
  rcases List.prefix_or_prefix_of_prefix htop hy with hin | hout
  · exact .inl hin
  cases names with
  | nil =>
    rw [List.take_nil, List.append_nil] at hout
    exact .inr (hs.files.way hd hout)
  | cons name rest =>
    rcases List.prefix_concat_iff.1 (hout : y <+: d ++ [name]) with rfl | hout
    · exact .inl (List.prefix_refl _)
    · exact .inr (hs.files.way hd hout)

/-- As long as nothing else is stored, the names that lead on meet no link. -/
theorem Destination.way (h : Destination s p known d names) (hg : Grown s t (d ++ names.take 1)) (more : List String) :
    Action.Way t known d (names ++ more) := by
  refine ⟨hg.sound, hg.leadsTo h.leads, fun first target hne hfirst => ?_⟩
  cases names with
  | nil => simpa using hg.noLink first target
  | cons name rest =>
    obtain ⟨c, first, rfl⟩ := List.exists_cons_of_ne_nil hne
    obtain ⟨rfl, -⟩ := List.cons_prefix_cons.1 hfirst
    simpa using hg.noLink first target

/-- Only missing directories on the way to a location have been made. -/
structure Opened (before s : Session) (x : Location) : Prop where
  only : s = { before with files := s.files, log := s.log }
  sound : s.Sound
  stored : ∀ y, s.files.get? y = before.files.get? y ∨
    before.files.get? y = none ∧ s.files.get? y = some .directory ∧ y <+: x

theorem Opened.eq_of_ne_none (h : Opened s t x) {y : Location} (hy : s.files.get? y ≠ none) :
    t.files.get? y = s.files.get? y := (h.stored y).resolve_right fun hnew => hy hnew.1

theorem Opened.eq_of_not_prefix (h : Opened s t x) {y : Location} (hy : ¬ y <+: x) :
    t.files.get? y = s.files.get? y := (h.stored y).resolve_right fun hnew => hy hnew.2.2

theorem Opened.ne_link (h : Opened s t x) {y : Location} {target : String}
    (hy : s.files.get? y ≠ some (.link target)) : t.files.get? y ≠ some (.link target) := by
  rcases h.stored y with hsame | ⟨-, hdir, -⟩
  · rwa [hsame]
  · rw [hdir]
    exact nofun

/-- Making directories where files are to be put disturbs nothing else. -/
theorem Grown.opened (h : Grown s t (d ++ names.take 1)) (hq : Destination s p known d names) (hs : s.Sound)
    (hx : d ++ names <+: x) (ho : Opened t u x) : Grown s u (d ++ names.take 1) := by
  refine Grown.of_cases (ho.only.trans (congrArg (fun v : Session => { v with files := u.files, log := u.log }) h.only))
    ho.sound hq.noLink fun y => ?_
  rcases ho.stored y with hsame | ⟨hnone, hdir, hy⟩
  · rw [hsame]
    by_cases hin : d ++ names.take 1 <+: y
    · refine (h.kept y).symm.imp_right fun hleaf => ⟨hin, hleaf, fun target => ?_⟩
      obtain ⟨rel, rfl⟩ := hin
      exact h.noLink rel target
    · exact .inl (h.outside y hin)
  · rcases hq.within hs hx hy with hin | hout
    · refine .inr ⟨hin, ?_, fun target => by rw [hdir]; exact nofun⟩
      rcases h.kept y with hleaf | hsame
      · exact hleaf
      · exact .inl (hsame.symm.trans hnone)
    · rw [h.directory hout] at hnone
      cases hnone

end Session

namespace Action

open Session

variable {s t : Session} {p known : Path} {d : Location} {way : List String} {P : Session → Prop}

/-! ### Failures that are no broken tags -/

/-- A failure that is no broken tag. -/
def Untagged (e : Failure) : Prop := ∀ fault path, e ≠ .tags fault path

theorem untagged_refuse (code : SystemCode) (w : WrittenPath) : Untagged (refuse code w) := fun _ _ => nofun

/-- An operation that never fails with a broken tag. -/
abbrev NeverTags {α : Type} (act : Action α) : Prop :=
  Ensures (fun _ => True) act (fun _ _ => True) fun e _ => Untagged e

theorem Ensures.during_untagged {α : Type} {act : Action α} {Q : α → Session → Prop}
    (h : Ensures P act Q fun e _ => Untagged e) (activity : Activity) (path : Path) :
    Ensures P (Action.during activity path act) Q fun e _ => Untagged e := by
  refine Ensures.tryCatch h fun e => ?_
  cases e with
  | system e => exact Ensures.throw fun _ _ => fun _ _ => nofun
  | _ => exact Ensures.throw fun _ he => he

/-- What else is known of an operation that never fails with a broken tag. -/
theorem Ensures.untagged {α : Type} {act : Action α} {Q : α → Session → Prop} {E : Failure → Session → Prop}
    (h : Ensures P act Q E) (hnever : NeverTags act) : Ensures P act Q fun e _ => Untagged e :=
  (h.and (hnever.mono (fun _ _ => trivial) (fun _ _ h => h) fun _ _ h => h)).mono (fun _ hs => hs) (fun _ _ hs => hs.1)
    fun _ _ hs => hs.2

theorem neverTags_locate (follow : Bool) (w : WrittenPath) : NeverTags (locate follow w) := by
  refine Ensures.query fun s _ => ?_
  split
  · exact fun _ _ => nofun
  · split
    · trivial
    · exact untagged_refuse _ w

theorem neverTags_makeDirectory (w : WrittenPath) : NeverTags (makeDirectory w) := by
  refine (neverTags_locate false w).bind fun place => ?_
  split
  · exact Ensures.throw fun _ _ => untagged_refuse _ w
  · exact Ensures.edit fun _ _ => trivial

private theorem neverTags_unless {w : WrittenPath} (e : SystemError) : NeverTags (do
    let s ← get
    if Session.isDirectoryNode (s.node? true w.path) then return ()
    throw (.system e)) := by
  refine Ensures.get_bind fun s => ?_
  split
  · exact Ensures.pure fun _ _ => trivial
  · exact Ensures.throw fun _ _ => fun _ _ => nofun

theorem neverTags_ensureDirectory (w : WrittenPath) : NeverTags (ensureDirectory w) := by
  refine Ensures.tryCatch (neverTags_makeDirectory w) fun e => ?_
  split
  · exact (neverTags_unless _).mono (fun _ _ => trivial) (fun _ _ h => h) fun _ _ h => h
  · exact Ensures.throw fun _ he => he

theorem neverTags_makePart (p : Path) (n : Nat) : NeverTags (makePart p n) := by
  induction n with
  | zero => exact neverTags_ensureDirectory _
  | succ n ih =>
    refine Ensures.tryCatch (neverTags_makeDirectory _) fun e => ?_
    split
    · exact ((ih.bind fun _ => neverTags_ensureDirectory _).mono (fun _ _ => trivial) (fun _ _ h => h)) fun _ _ h => h
    · exact (neverTags_unless _).mono (fun _ _ => trivial) (fun _ _ h => h) fun _ _ h => h
    · exact Ensures.throw fun _ he => he

theorem neverTags_writeFile (w : WrittenPath) (data : Bytes) : NeverTags (writeFile w data) := by
  refine (neverTags_locate true w).bind fun place => ?_
  split
  · exact Ensures.edit fun _ _ => trivial
  · exact Ensures.edit fun _ _ => trivial
  · exact Ensures.throw fun _ _ => untagged_refuse _ w

theorem neverTags_content (w : WrittenPath) : NeverTags (query fun s => s.content? w) := by
  refine Ensures.query fun s _ => ?_
  unfold Session.content?
  split
  · exact fun _ _ => nofun
  · split
    · exact untagged_refuse _ w
    · trivial
    · exact untagged_refuse _ w
    · exact untagged_refuse _ w

theorem neverTags_copyContent (sourceName targetName : FileName) (source target : WrittenPath) :
    NeverTags (copyContent sourceName source targetName target) := by
  unfold copyContent
  dsimp only
  split
  · exact Ensures.throw_bind fun _ _ => fun _ _ => nofun
  refine Ensures.get_bind fun s => ?_
  split
  · exact Ensures.throw_bind fun _ _ => fun _ _ => nofun
  exact ((neverTags_content source).mono (fun _ _ => trivial) (fun _ _ h => h) fun _ _ h => h).bind fun data =>
    neverTags_writeFile target data

/-! ### Making the parent of a file -/

/-- Making a directory makes nothing but what is missing on the way to it, whether it can be made or not. -/
theorem makeDirectories_opens (hw : Way s known d way) (hnamed : ∀ c ∈ way, IsName c) :
    Ensures (fun t => t = s) (makeDirectories (known.append way))
      (fun _ t => Opened s t (d ++ way) ∧ t.files.get? (d ++ way) = some .directory)
      fun e t => Opened s t (d ++ way) ∧ Untagged e := by
  have hroom : Room (Alone fun t => Opened s t (d ++ way)) known d way := by
    refine Room.alone hnamed (fun t ht => ⟨ht.sound, ?_, ?_⟩) fun t first c ht hfirst hc hdir hnone => ?_
    · refine hw.leads.mono (by rw [ht.only]) (fun y hy => ?_) fun y target hy => ?_
      · rw [ht.eq_of_ne_none (by rw [hy]; exact Option.some_ne_none _), hy]
      · rw [ht.eq_of_ne_none (by rw [hy]; exact Option.some_ne_none _), hy]
    · exact fun first target hne hfirst => ht.ne_link (hw.clear first target hne hfirst)
    · have hne : d ++ first ++ [c] ≠ [] := by simp
      refine ⟨congrArg (fun v : Session => { v with files := t.files.put (d ++ first ++ [c]) .directory }) ht.only,
        ht.sound.put hdir hc fun _ => rfl, fun y => ?_⟩
      simp only
      rw [Files.get?_put hne]
      split
      · rename_i hy
        subst hy
        have hold : s.files.get? (d ++ first ++ [c]) = none := by
          by_contra hold
          exact hold ((ht.eq_of_ne_none hold).symm.trans hnone)
        refine .inr ⟨hold, rfl, ?_⟩
        rw [List.append_assoc]
        exact (List.prefix_append_right_inj d).2 hfirst
      · exact ht.stored y
  have hnever : Ensures (fun t => Opened s t (d ++ way)) (makeDirectories (known.append way)) (fun _ _ => True)
      fun e _ => Untagged e :=
    (neverTags_makePart _ _).mono (fun _ _ => trivial) (fun _ _ h => h) fun _ _ h => h
  refine ((makeDirectories_ensures hroom).and hnever).mono ?_ (fun _ t ht => ht.1) fun e t ht => ht
  rintro t rfl
  exact ⟨rfl, hw.sound, fun y => .inl rfl⟩

end Action

end Handout
