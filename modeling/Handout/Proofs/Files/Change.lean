import Handout.Files.Copy
import Handout.Proofs.Files.Look
import Handout.Proofs.TwoSessions

/-!
# What changes keep

A property of sessions is kept by making directories and by writing files as soon as it is kept by storing the new
node; `Room` and `Region` collect what is needed below the directory to which a base leads.  The rules are those for
two sessions, in which the same is made and written (`makeDirectories_relates`, `writeFile_relates`); with one session
beside itself they become the rules for invariants (`makeDirectories_ensures`, `writeFile_ensures`).
-/

namespace Handout.Action

variable {P : Session → Prop} {R : Session → Session → Prop} {base p : Path} {d : Location}
  {names first : List String} {w : WrittenPath} {follow : Bool} {s t : Session}

theorem locate_relates (h : ∀ s t, R s t → s.find follow w.path = t.find follow w.path) :
    Relates R (locate follow w) (locate follow w)
      (fun place s t => R s t ∧ w.path.hasZero = false ∧ s.find follow w.path = .ok place) (Same fun _ => R) := by
  refine Relates.query fun s t hst => ?_
  rw [h s t hst]
  split
  · exact ⟨rfl, hst⟩
  · rename_i hz
    cases hf : t.find follow w.path with
    | ok place => exact ⟨rfl, hst, by simpa using hz, by rw [h s t hst, hf]⟩
    | error code => exact ⟨rfl, hst⟩

/-- Some names below the directory to which a base leads meet no link. -/
structure Way (s : Session) (base : Path) (d : Location) (names : List String) : Prop where
  sound : s.Sound
  leads : s.LeadsTo base d
  clear : s.files.Clear d names

theorem Way.upTo (h : Way s base d names) (hp : first <+: names) : Way s base d first :=
  ⟨h.sound, h.leads, fun q target hq hqp => h.clear q target hq (hqp.trans hp)⟩

/-- Names lead to the same in two sessions that agree on the way. -/
theorem Way.find_eq (hs : Way s base d names) (ht : Way t base d names) (hp : ∀ c ∈ names, IsName c)
    (hsame : ∀ first, first <+: names → s.files.get? (d ++ first) = t.files.get? (d ++ first))
    (hq : names ≠ [] ∨ follow = true) : s.find follow (base.append names) = t.find follow (base.append names) := by
  obtain ⟨n, hn, hl⟩ := hs.leads
  obtain ⟨m, hm, hl'⟩ := ht.leads
  have hfind : s.find follow (base.append names) = s.files.walk follow (maxLinks - n) d names :=
    Files.walk_of_leads hl hn hq
  have hfind' : t.find follow (base.append names) = t.files.walk follow (maxLinks - m) d names :=
    Files.walk_of_leads hl' hm hq
  rw [hfind, hfind']
  exact Files.walk_congr (plain_of_isName hp) hs.clear fun first _ hfirst => hsame first hfirst

/-- In both sessions, the same directories may be made by some names below the directory to which a base leads. -/
structure Room (R : Session → Session → Prop) (base : Path) (d : Location) (names : List String) : Prop where
  named : ∀ c ∈ names, IsName c
  left : ∀ s t, R s t → Way s base d names
  right : ∀ s t, R s t → Way t base d names
  same : ∀ s t, R s t → ∀ first, first <+: names → s.files.get? (d ++ first) = t.files.get? (d ++ first)
  put : ∀ s t first c, R s t → first ++ [c] <+: names → IsProper c → s.files.get? (d ++ first) = some .directory →
    s.files.get? (d ++ first ++ [c]) = none →
    R { s with files := s.files.put (d ++ first ++ [c]) .directory }
      { t with files := t.files.put (d ++ first ++ [c]) .directory }

theorem Room.alone (named : ∀ c ∈ names, IsName c) (way : ∀ s, P s → Way s base d names)
    (put : ∀ s first c, P s → first ++ [c] <+: names → IsProper c → s.files.get? (d ++ first) = some .directory →
      s.files.get? (d ++ first ++ [c]) = none → P { s with files := s.files.put (d ++ first ++ [c]) .directory }) :
    Room (Alone P) base d names := by
  refine ⟨named, fun s t h => way s h.2, ?_, ?_, ?_⟩
  · rintro s t ⟨rfl, h⟩
    exact way s h
  · rintro s t ⟨rfl, h⟩ first _
    rfl
  · rintro s t first c ⟨rfl, h⟩ hfirst hc hd hn
    exact ⟨rfl, put s first c h hfirst hc hd hn⟩

theorem Room.upTo (h : Room R base d names) (hp : first <+: names) : Room R base d first where
  named c hc := h.named c (hp.subset hc)
  left s t hst := (h.left s t hst).upTo hp
  right s t hst := (h.right s t hst).upTo hp
  same s t hst q hq := h.same s t hst q (hq.trans hp)
  put s t q c hst hq := h.put s t q c hst (hq.trans hp)

theorem Room.find_eq (h : Room R base d names) (hst : R s t) (hq : names ≠ [] ∨ follow = true) :
    s.find follow (base.append names) = t.find follow (base.append names) :=
  (h.left s t hst).find_eq (h.right s t hst) h.named (h.same s t hst) hq

theorem Room.node?_eq (h : Room R base d names) (hst : R s t) :
    s.node? true (base.append names) = t.node? true (base.append names) := by
  unfold Session.node?
  rw [h.find_eq hst (.inr rfl)]

theorem Way.node (h : Way s base d names) (hp : ∀ c ∈ names, IsName c)
    (hn : Session.isDirectoryNode (s.node? true (base.append names)) = true) :
    s.files.get? (d ++ names) = some .directory := by
  unfold Session.node? at hn
  split at hn
  · cases hn
  · rcases Session.find_append true h.leads h.sound (plain_of_isName hp) h.clear (.inr rfl) with hf | ⟨code, hf, -, -⟩
    · rw [hf] at hn
      simp only at hn
      unfold Session.isDirectoryNode at hn
      split at hn
      · assumption
      · cases hn
    · rw [hf] at hn
      cases hn

/-- Where something is stored by names below a base. -/
theorem stored_at {place : Place} (h : Way s base d names) (hp : ∀ c ∈ names, IsName c)
    (hz : (base.append names).hasZero = false) (hq : names ≠ [] ∨ follow = true)
    (hf : s.find follow (base.append names) = .ok place) (hnode : place.node ≠ some .directory) :
    ∃ init c, names = init ++ [c] ∧ IsProper c ∧ place.location = d ++ init ++ [c] ∧
      place.node = s.files.get? (d ++ init ++ [c]) ∧ s.files.get? (d ++ init) = some .directory := by
  have hplace : place = ⟨d ++ names, s.files.get? (d ++ names)⟩ := by
    rcases Session.find_append follow h.leads h.sound (plain_of_isName hp) h.clear hq with hf' | ⟨code, hf', -, -⟩
    · exact Except.ok.inj (hf.symm.trans hf')
    · cases hf.symm.trans hf'
  obtain ⟨-, hparent⟩ := Session.find_isSound h.sound hf
  obtain ⟨d', c, hloc, hd', hc', hshort⟩ := hparent hnode
  rcases List.eq_nil_or_concat' names with rfl | ⟨init, last, rfl⟩
  · rw [List.append_nil, h.leads.directory h.sound] at hplace
    rw [hplace] at hnode
    exact absurd rfl hnode
  · rw [hplace] at hloc ⊢
    simp only at hloc ⊢
    rw [← List.append_assoc] at hloc ⊢
    obtain ⟨rfl, hlast⟩ := List.append_inj' hloc rfl
    cases hlast
    exact ⟨init, c, rfl, ⟨hp c (by simp), hshort, Path.not_mem_of_hasZero hz (by simp)⟩, rfl, rfl, hd'⟩

/-! ### Making directories -/

/-- A directory that is there is not made again. -/
theorem perform_makeDirectory_base (hl : s.LeadsTo base d) (hw : w.path = base) :
    (makeDirectory w).perform s = (.error (if w.path.hasZero then .zeroInPath else refuse .fileExists w), s) := by
  obtain ⟨n, hn, hl⟩ := hl
  obtain ⟨loc, node, hwalk⟩ := Files.walk_exists_of_leads false hl hn
  have hfind : s.find false w.path = .ok ⟨loc, some node⟩ := by
    rw [hw]
    exact hwalk
  unfold makeDirectory locate
  rw [perform_bind, perform_query]
  by_cases hz : w.path.hasZero = true
  · rw [if_pos hz, if_pos hz]
  · rw [if_neg hz, if_neg hz, hfind]
    rfl

theorem makeDirectory_relates (h : Room R base d names) (hw : w.path = base.append names) :
    Relates R (makeDirectory w) (makeDirectory w)
      (fun _ s t => R s t ∧ s.files.get? (d ++ names) = some .directory) (Same fun _ => R) := by
  by_cases hne : names = []
  · subst hne
    rw [Path.append_nil] at hw
    intro s t hst
    rw [perform_makeDirectory_base (h.left s t hst).leads hw, perform_makeDirectory_base (h.right s t hst).leads hw]
    exact ⟨rfl, hst⟩
  · refine (locate_relates fun s t hst => by rw [hw]; exact h.find_eq hst (.inl hne)).bind fun place => ?_
    cases hnode : place.node with
    | some node => exact Relates.throw fun s t hst => ⟨rfl, hst.1⟩
    | none =>
      refine Relates.edit fun s t hst => ?_
      obtain ⟨hst, hz, hf⟩ := hst
      rw [hw] at hz hf
      obtain ⟨init, c, rfl, hproper, hloc, hold, hd⟩ := stored_at (h.left s t hst) h.named hz (.inl hne) hf
        (by rw [hnode]; exact nofun)
      rw [hnode] at hold
      rw [hloc, ← List.append_assoc]
      exact ⟨h.put s t init c hst (List.prefix_refl _) hproper hd hold.symm, Files.get?_put_self (by simp)⟩

/-- What is done after a directory could not be made: this is no failure if it is there. -/
theorem unlessDirectory_relates (h : Room R base d names) (hw : w.path = base.append names) (e : SystemError) :
    let act : Action Unit := do
      let s ← get
      if Session.isDirectoryNode (s.node? true w.path) then return ()
      throw (.system e)
    Relates R act act (fun _ s t => R s t ∧ s.files.get? (d ++ names) = some .directory) (Same fun _ => R) := by
  refine Relates.get_bind fun s t hst => ?_
  rw [hw, h.node?_eq hst]
  by_cases hn : Session.isDirectoryNode (t.node? true (base.append names)) = true
  · simp only [hn, if_true]
    refine Relates.pure ?_
    rintro s' t' ⟨rfl, rfl⟩
    exact ⟨hst, (h.left s' t' hst).node h.named (by rw [h.node?_eq hst, hn])⟩
  · simp only [hn]
    refine Relates.throw ?_
    rintro s' t' ⟨rfl, rfl⟩
    exact ⟨rfl, hst⟩

theorem ensureDirectory_relates (h : Room R base d names) (hw : w.path = base.append names) :
    Relates R (ensureDirectory w) (ensureDirectory w)
      (fun _ s t => R s t ∧ s.files.get? (d ++ names) = some .directory) (Same fun _ => R) := by
  refine (makeDirectory_relates h hw).tryCatch_same fun e => ?_
  cases e with
  | system e => exact unlessDirectory_relates h hw e
  | _ => exact Relates.throw fun _ _ hst => ⟨rfl, hst⟩

theorem pathPart_append (base : Path) (names : List String) (k : Nat) :
    pathPart (base.append names) (base.parts.length + k) = base.append (names.take k) := by
  unfold pathPart
  rw [Path.parts_append, List.take_length_add_append]
  rfl

/-- The step of `makePart`, when making the directory itself may fail with `F`. -/
private theorem makePart_succ {n : Nat} {Q : Unit → Session → Session → Prop}
    {F : Failure → Session → Session → Prop} {E : Failure → Failure → Session → Session → Prop}
    (hm : Relates R (makeDirectory (pathPart p (n + 1)).written) (makeDirectory (pathPart p (n + 1)).written) Q
      (Same F))
    (hparent : ∀ path, Relates (F (.system (.call .noEntry path)))
      (do makePart p n; ensureDirectory (pathPart p (n + 1)).written)
      (do makePart p n; ensureDirectory (pathPart p (n + 1)).written) Q E)
    (hthere : ∀ e, let act : Action Unit := do
        let s ← get
        if Session.isDirectoryNode (s.node? true (pathPart p (n + 1)).written.path) then return ()
        throw (.system e)
      Relates (F (.system e)) act act Q E)
    (hthrow : ∀ e s t, F e s t → E e e s t) : Relates R (makePart p (n + 1)) (makePart p (n + 1)) Q E := by
  refine hm.tryCatch_same fun e => ?_
  split
  · exact hparent _
  · exact hthere _
  · exact Relates.throw (hthrow _)

theorem makePart_relates (h : Room R base d names) (k : Nat) :
    Relates R (makePart (base.append names) (base.parts.length + k))
      (makePart (base.append names) (base.parts.length + k))
      (fun _ s t => R s t ∧ s.files.get? (d ++ names.take k) = some .directory) (Same fun _ => R) := by
  have hk := h.upTo (List.take_prefix k names)
  have hw := pathPart_append base names k
  induction k with
  | zero =>
    cases hn : base.parts.length with
    | zero =>
      rw [hn] at hw
      exact ensureDirectory_relates hk hw
    | succ n =>
      rw [hn, Nat.add_zero] at hw
      have hbase : Relates R (makeDirectory (pathPart (base.append names) (n + 1)).written)
          (makeDirectory (pathPart (base.append names) (n + 1)).written)
          (fun _ s t => R s t ∧ s.files.get? (d ++ names.take 0) = some .directory)
          (Same fun e s t => R s t ∧ ∀ path, e ≠ .system (.call .noEntry path)) := by
        have hpath : (pathPart (base.append names) (n + 1)).written.path = base := by
          rw [List.take_zero, Path.append_nil] at hw
          exact hw
        intro s t hst
        rw [perform_makeDirectory_base (h.left s t hst).leads hpath,
          perform_makeDirectory_base (h.right s t hst).leads hpath]
        refine ⟨rfl, hst, fun path => ?_⟩
        split <;> exact nofun
      refine makePart_succ hbase (fun path s t hst => ?_) (fun e => ?_) fun e s t hst => ⟨rfl, hst.1⟩
      · exact absurd rfl (hst.2 path)
      · exact (unlessDirectory_relates hk hw e).mono (fun s t hst => hst.1) (fun _ _ _ hst => hst)
          fun _ _ _ _ hst => hst
  | succ k ih =>
    have ih' := ih (h.upTo (List.take_prefix k names)) (pathPart_append base names k)
    refine makePart_succ (makeDirectory_relates hk hw) (fun path => ?_) (fun e => ?_) fun e s t hst => ⟨rfl, hst⟩
    · exact (ih'.mono (fun _ _ hst => hst) (fun _ _ _ hst => hst.1) fun _ _ _ _ hst => hst).bind fun _ =>
        ensureDirectory_relates hk hw
    · exact unlessDirectory_relates hk hw e

/-- Making directories below a base does the same in both sessions, and afterwards the directory is there. -/
theorem makeDirectories_relates (h : Room R base d names) :
    Relates R (makeDirectories (base.append names)) (makeDirectories (base.append names))
      (fun _ s t => R s t ∧ s.files.get? (d ++ names) = some .directory) (Same fun _ => R) := by
  have hk := makePart_relates h names.length
  rw [List.take_length] at hk
  unfold makeDirectories
  rw [Path.parts_append, List.length_append]
  exact hk

/-- Making directories below a base keeps what storing one of them keeps, and afterwards the directory is there. -/
theorem makeDirectories_ensures (h : Room (Alone P) base d names) :
    Ensures P (makeDirectories (base.append names))
      (fun _ s => P s ∧ s.files.get? (d ++ names) = some .directory) fun _ => P :=
  ensures_iff_relates.2 ((makeDirectories_relates h).mono (fun _ _ hst => hst)
    (fun _ _ _ hst => ⟨hst.1.1, hst.1.2, hst.2⟩) fun _ _ _ _ hst => hst)

/-- The step of `makePart` in one session. -/
theorem makePart_succ_alone {n : Nat} {Q : Unit → Session → Prop} {F E : Failure → Session → Prop}
    (hm : Ensures P (makeDirectory (pathPart p (n + 1)).written) Q F)
    (hparent : ∀ path, Ensures (F (.system (.call .noEntry path)))
      (do makePart p n; ensureDirectory (pathPart p (n + 1)).written) Q E)
    (hthere : ∀ e, Ensures (F (.system e)) (do
        let s ← get
        if Session.isDirectoryNode (s.node? true (pathPart p (n + 1)).written.path) then return ()
        throw (.system e)) Q E)
    (hthrow : ∀ e s, F e s → E e s) : Ensures P (makePart p (n + 1)) Q E :=
  ensures_iff_relates.2 (makePart_succ (ensures_iff_relates.1 hm) (fun path => ensures_iff_relates.1 (hparent path))
    (fun e => ensures_iff_relates.1 (hthere e)) fun e _ _ h => ⟨rfl, h.1, hthrow e _ h.2⟩)

/-- In the place of a name there is a link that leads to no directory. -/
structure Dangling (s : Session) (base : Path) (d : Location) (name : String) : Prop where
  sound : s.Sound
  leads : s.LeadsTo base d
  plain : IsPlain name
  link : ∃ target, s.files.get? (d ++ [name]) = some (.link target)
  nowhere : ∀ e, ¬ s.LeadsTo (base.append [name]) e

theorem Dangling.find {s : Session} {name : String} (h : Dangling s base d name) :
    ∃ target, s.find false (base.append [name]) = .ok ⟨d ++ [name], some (.link target)⟩ := by
  obtain ⟨target, hlink⟩ := h.link
  obtain ⟨n, hn, hl⟩ := h.leads
  have hne : [name] ≠ [] ∨ false = true := .inl (by simp)
  have hshort : name.utf8ByteSize ≤ maxName :=
    (h.sound.files.proper (by rw [hlink]; exact Option.some_ne_none _)).short
  refine ⟨target, ?_⟩
  have hfind : s.find false (base.append [name]) = s.files.walk false (maxLinks - n) d [name] :=
    Files.walk_of_leads hl hn hne
  rw [hfind, Files.walk_name h.plain hshort, hlink]
  rfl

/-- Neither the name nor what is below it leads to a directory. -/
theorem Dangling.isDirectoryNode {s : Session} {name : String} (h : Dangling s base d name) (rest : List String) :
    Session.isDirectoryNode (s.node? true (base.append (name :: rest))) = false := by
  refine Bool.eq_false_iff.2 fun hn => ?_
  unfold Session.node? at hn
  split at hn
  · cases hn
  · split at hn
    · rename_i place hf
      have hdir : place.node = some .directory := by
        unfold Session.isDirectoryNode at hn
        split at hn
        · assumption
        · cases hn
      rw [show name :: rest = [name] ++ rest from rfl, ← Path.append_append] at hf
      obtain ⟨e, he⟩ := Session.leads_of_find_append hf (.inr ⟨rfl, hdir⟩)
      exact h.nowhere e he
    · cases hn

/-- Where a link leads to no directory none is made, and if nothing is to be made below the link, the failure is not
that there is no parent. -/
private theorem makeDirectory_dangling {name : String} {rest : List String} (h : ∀ s, P s → Dangling s base d name)
    (hw : w.path = base.append (name :: rest)) : Ensures P (makeDirectory w) (fun _ _ => False)
      fun e s => P s ∧ (rest = [] → ∀ path, e ≠ .system (.call .noEntry path)) := by
  intro s hs
  obtain ⟨target, hfind⟩ := (h s hs).find
  unfold makeDirectory locate
  rw [perform_bind, perform_query]
  by_cases hz : w.path.hasZero = true
  · rw [if_pos hz]
    exact ⟨hs, fun _ path he => by cases he⟩
  rw [if_neg hz, hw]
  by_cases hr : rest = []
  · subst hr
    rw [hfind]
    exact ⟨hs, fun _ path he => by cases he⟩
  · cases hf : s.find false (base.append (name :: rest)) with
    | error code => exact ⟨hs, fun h => absurd h hr⟩
    | ok place =>
      rw [show name :: rest = [name] ++ rest from rfl, ← Path.append_append] at hf
      obtain ⟨e, he⟩ := Session.leads_of_find_append hf (.inl hr)
      exact absurd he ((h s hs).nowhere e)

/-- No directory is made below a link that leads to no directory. -/
theorem makeDirectories_dangling {name : String} {rest : List String} (h : ∀ s, P s → Dangling s base d name) :
    Ensures P (makeDirectories (base.append (name :: rest))) (fun _ _ => False) fun _ => P := by
  have hw : ∀ k, (pathPart (base.append (name :: rest)) (base.parts.length + k + 1)).written.path =
      base.append (name :: rest.take k) := fun k => pathPart_append base (name :: rest) (k + 1)
  have hmake := fun k => makeDirectory_dangling h (hw k)
  have hthere : ∀ k e, Ensures P (do
      let s ← get
      if Session.isDirectoryNode
          (s.node? true (pathPart (base.append (name :: rest)) (base.parts.length + k + 1)).written.path) then
        return ()
      throw (.system e)) (fun _ _ => False) fun _ => P := by
    intro k e
    refine Ensures.get_bind fun s => ?_
    rintro t ⟨rfl, ht⟩
    rw [hw, (h t ht).isDirectoryNode]
    exact ht
  have hpart : ∀ k, Ensures P (makePart (base.append (name :: rest)) (base.parts.length + k + 1))
      (fun _ _ => False) fun _ => P := by
    intro k
    induction k with
    | zero =>
      refine makePart_succ_alone (hmake 0) (fun path s hs => ?_) (fun e => ?_) fun e s hs => hs.1
      · exact absurd rfl (hs.2 rfl path)
      · exact (hthere 0 e).mono (fun _ hs => hs.1) (fun _ _ hs => hs) fun _ _ hs => hs
    | succ k ih =>
      refine makePart_succ_alone (hmake (k + 1)) (fun path => ?_) (fun e => ?_) fun e s hs => hs.1
      · exact (ih.mono (fun _ hs => hs.1) (fun _ _ hs => hs) fun _ _ hs => hs).bind fun _ s hs => hs.elim
      · exact (hthere (k + 1) e).mono (fun _ hs => hs.1) (fun _ _ hs => hs) fun _ _ hs => hs
  have hlast := hpart rest.length
  unfold makeDirectories
  rw [Path.parts_append, List.length_append]
  exact hlast

/-! ### Writing files -/

/-- The flag of a file that is written where there was nothing or a file. -/
def Flagged (old : Option Node) (flag : Bool) : Prop :=
  old = none ∧ flag = false ∨ ∃ data, old = some (.file data flag)

theorem Flagged.ne_directory {old : Option Node} {flag : Bool} (h : Flagged old flag) : old ≠ some .directory := by
  rcases h with ⟨h, -⟩ | ⟨data, h⟩ <;> rw [h] <;> simp

theorem Flagged.unique {old : Option Node} {flag flag' : Bool} (h : Flagged old flag) (h' : Flagged old flag') :
    flag = flag' := by
  rcases h with ⟨rfl, rfl⟩ | ⟨data, rfl⟩
  · rcases h' with ⟨-, rfl⟩ | ⟨data', hsame⟩
    · rfl
    · cases hsame
  · rcases h' with ⟨hnone, -⟩ | ⟨data', hsame⟩
    · cases hnone
    · cases hsame
      rfl

/-- Writing a file stores it where its path leads. -/
theorem writeFile_relates {data : Bytes} {Q : Session → Session → Prop}
    (hfind : ∀ s t, R s t → s.find true w.path = t.find true w.path)
    (hput : ∀ s t place flag, R s t → w.path.hasZero = false → s.find true w.path = .ok place →
      Flagged place.node flag → Q { s with files := s.files.put place.location (.file data flag) }
        { t with files := t.files.put place.location (.file data flag) }) :
    Relates R (writeFile w data) (writeFile w data) (fun _ => Q) (Same fun _ => R) := by
  refine (locate_relates hfind).bind fun place => ?_
  split
  · rename_i hn
    exact Relates.edit fun s t hst => hput s t place _ hst.1 hst.2.1 hst.2.2 (.inl ⟨hn, rfl⟩)
  · rename_i old flag hn
    exact Relates.edit fun s t hst => hput s t place _ hst.1 hst.2.1 hst.2.2 (.inr ⟨old, hn⟩)
  · exact Relates.throw fun s t hst => ⟨rfl, hst.1⟩

theorem writeFile_ensures {data : Bytes} {Q : Session → Prop}
    (hput : ∀ s place flag, P s → w.path.hasZero = false → s.find true w.path = .ok place →
      Flagged place.node flag → Q { s with files := s.files.put place.location (.file data flag) }) :
    Ensures P (writeFile w data) (fun _ => Q) fun _ => P := by
  refine ensures_iff_relates.2 (writeFile_relates ?_ ?_)
  · rintro s t ⟨rfl, -⟩
    rfl
  · rintro s t place flag ⟨rfl, hs⟩ hz hf hflag
    exact ⟨rfl, hput s place flag hs hz hf hflag⟩

/-- Copying the content of a file stores the copy where its path leads. -/
theorem copyContent_ensures {sourceName targetName : FileName} {source target : WrittenPath} {Q : Session → Prop}
    (hput : ∀ s place loc data executable flag, P s → target.path.hasZero = false →
      s.find true source.path = .ok ⟨loc, some (.file data executable)⟩ → s.find true target.path = .ok place →
      Flagged place.node flag → Q { s with files := s.files.put place.location (.file data flag) }) :
    Ensures P (copyContent sourceName source targetName target) (fun _ => Q) fun _ => P := by
  unfold copyContent
  dsimp only
  split
  · exact Ensures.throw_bind fun s hs => hs
  refine Ensures.get_bind fun s => ?_
  split
  · exact Ensures.throw_bind fun t ht => ht.2
  have hcontent : Ensures (fun t => t = s ∧ P t) (query fun s => s.content? source)
      (fun data t => P t ∧ ∃ loc executable, t.find true source.path = .ok ⟨loc, some (.file data executable)⟩)
      fun _ => P := by
    refine Ensures.query fun t ht => ?_
    cases hdata : t.content? source with
    | error e => exact ht.2
    | ok data => exact ⟨ht.2, (Session.content?_eq_ok hdata).2⟩
  refine hcontent.bind fun data => ?_
  refine (writeFile_ensures (Q := Q) ?_).mono (fun _ hs => hs) (fun _ _ hs => hs) fun _ _ hs => hs.1
  intro t place flag ht htz hf hnode
  obtain ⟨ht, loc, executable, hsource⟩ := ht
  exact hput t place loc data executable flag ht htz hsource hf hnode

/-! ### Regions -/

/-- In both sessions, whatever is made or written by permitted names below the directory to which a base leads may
be made and written. -/
structure Region (R : Session → Session → Prop) (base : Path) (d : Location) (ok : List String → Prop) : Prop where
  left : ∀ s t, R s t → ∀ names, Way s base d names
  right : ∀ s t, R s t → ∀ names, Way t base d names
  same : ∀ s t, R s t → ∀ rel, rel = [] ∨ ok rel → s.files.get? (d ++ rel) = t.files.get? (d ++ rel)
  make : ∀ s t rel c, R s t → ok (rel ++ [c]) → IsProper c → s.files.get? (d ++ rel) = some .directory →
    s.files.get? (d ++ rel ++ [c]) = none → R { s with files := s.files.put (d ++ rel ++ [c]) .directory }
      { t with files := t.files.put (d ++ rel ++ [c]) .directory }
  write : ∀ s t rel c data flag, R s t → ok (rel ++ [c]) → IsProper c → s.files.get? (d ++ rel) = some .directory →
    Flagged (s.files.get? (d ++ rel ++ [c])) flag →
    R { s with files := s.files.put (d ++ rel ++ [c]) (.file data flag) }
      { t with files := t.files.put (d ++ rel ++ [c]) (.file data flag) }

/-- All that names lead to, and all on the way, is permitted. -/
def Opens (ok : List String → Prop) (names : List String) : Prop :=
  ∀ rest first, first ≠ [] → first <+: names ++ rest → ok first

theorem Opens.append {ok : List String → Prop} (h : Opens ok names) (more : List String) : Opens ok (names ++ more) := by
  intro rest first hne hfirst
  rw [List.append_assoc] at hfirst
  exact h (more ++ rest) first hne hfirst

theorem Opens.upTo {ok : List String → Prop} (h : Opens ok names) (hne : first ≠ []) (hfirst : first <+: names) :
    ok first := h [] first hne (by rwa [List.append_nil])

variable {ok : List String → Prop}

theorem Region.room (h : Region R base d ok) (hp : ∀ c ∈ names, IsName c)
    (hok : ∀ first, first ≠ [] → first <+: names → ok first) : Room R base d names where
  named := hp
  left s t hst := h.left s t hst names
  right s t hst := h.right s t hst names
  same s t hst first hfirst := h.same s t hst first (by
    by_cases hne : first = []
    · exact .inl hne
    · exact .inr (hok first hne hfirst))
  put s t first c hst hfirst := h.make s t first c hst (hok _ (by simp) hfirst)

theorem Region.writeFile_relates (h : Region R base d ok) (hp : ∀ c ∈ names, IsName c)
    (hok : ∀ first, first ≠ [] → first <+: names → ok first) (hw : w.path = base.append names) (data : Bytes) :
    Relates R (writeFile w data) (writeFile w data) (fun _ => R) (Same fun _ => R) := by
  have hroom := h.room hp hok
  refine Action.writeFile_relates (fun s t hst => by rw [hw]; exact hroom.find_eq hst (.inr rfl))
    fun s t place flag hst hz hf hflag => ?_
  rw [hw] at hz hf
  obtain ⟨init, c, rfl, hproper, hloc, hnode, hd⟩ :=
    stored_at (hroom.left s t hst) hp hz (.inr rfl) hf hflag.ne_directory
  rw [hloc]
  rw [hnode] at hflag
  exact h.write s t init c data flag hst (hok _ (by simp) (List.prefix_refl _)) hproper hd hflag

end Handout.Action
