import Handout.Files.Change
import Handout.Proofs.Files.Traverse

/-!
# How requests are refused

A request to the operating system fails as such (`Failure.IsSystem`), unless it is about a path with a zero character;
an activity reports it (`Ensures.during_reported`).  A question about a path is no part of an activity.  It is answered
if no name that is met on the way is too long (`Session.look_of_short`).
-/

namespace Handout

/-- A refusal by the operating system, which is reported as part of an activity only. -/
def Failure.IsSystem : Failure → Prop
  | .system _ => True
  | _ => False

/-! ### Names of permitted length -/

/-- All names in a path have a permitted length. -/
def Path.IsShort (p : Path) : Prop := ∀ c ∈ p.parts, c.utf8ByteSize ≤ maxName

instance (p : Path) : Decidable p.IsShort := inferInstanceAs (Decidable (∀ c ∈ p.parts, c.utf8ByteSize ≤ maxName))

theorem Path.IsShort.append {p : Path} (h : p.IsShort) {names : List String}
    (hnames : ∀ c ∈ names, c.utf8ByteSize ≤ maxName) : (p.append names).IsShort := by
  intro c hc
  rcases List.mem_append.1 hc with hc | hc
  · exact h c hc
  · exact hnames c hc

namespace Files

variable {f : Files} {pieces : List String}

/-- All names in what links stand for have a permitted length. -/
def HasShortLinks (f : Files) : Prop :=
  ∀ loc target, f.get? loc = some (.link target) → ∀ c ∈ Path.pieces target, c.utf8ByteSize ≤ maxName

private theorem walkWith_of_short {follow : Bool} {again : Location → List String → Except SystemCode Place}
    (hagain : ∀ dir pieces, (∀ c ∈ pieces, c.utf8ByteSize ≤ maxName) → again dir pieces ≠ .error .nameTooLong)
    (h : f.HasShortLinks) (hp : ∀ c ∈ pieces, c.utf8ByteSize ≤ maxName) (dir : Location) :
    f.walkWith follow again dir pieces ≠ .error .nameTooLong := by
  induction pieces generalizing dir with
  | nil => exact nofun
  | cons c rest ih =>
    have hrest : ∀ x ∈ rest, x.utf8ByteSize ≤ maxName := fun x hx => hp x (List.mem_cons_of_mem _ hx)
    have hc : ¬ maxName < c.utf8ByteSize := Nat.not_lt.2 (hp c (List.mem_cons_self ..))
    unfold walkWith
    rw [if_neg hc]
    split
    · exact ih hrest dir
    split
    · exact ih hrest _
    dsimp only
    split
    · split <;> exact nofun
    · exact ih hrest _
    · split <;> exact nofun
    · rename_i target hlink
      split
      · exact nofun
      · refine hagain _ _ fun x hx => ?_
        rcases List.mem_append.1 hx with hx | hx
        · exact h _ target hlink x hx
        · exact hrest x hx

/-- On the way of names of permitted length, no name is too long. -/
theorem walk_of_short (h : f.HasShortLinks) (follow : Bool) (links : Nat) (dir : Location)
    (hp : ∀ c ∈ pieces, c.utf8ByteSize ≤ maxName) : f.walk follow links dir pieces ≠ .error .nameTooLong := by
  induction links generalizing dir pieces with
  | zero => exact walkWith_of_short (fun _ _ _ he => by cases he) h hp dir
  | succ links ih => exact walkWith_of_short (fun dir _ hpieces => ih dir hpieces) h hp dir

end Files

namespace Session

variable {s : Session} {p : Path}

/-- A question about a path of names of permitted length is answered. -/
theorem look_of_short (h : s.files.HasShortLinks) (hp : p.IsShort) (follow : Bool) :
    ∃ node, s.look follow p = .ok node := by
  have hwalk : s.find follow p ≠ .error .nameTooLong := Files.walk_of_short h follow _ _ hp
  unfold look
  split
  · exact ⟨_, rfl⟩
  · split
    · exact ⟨_, rfl⟩
    · rename_i hf
      exact absurd hf hwalk
    · exact ⟨_, rfl⟩

theorem exists?_of_short (h : s.files.HasShortLinks) (hp : p.IsShort) : ∃ b, s.exists? p = .ok b := by
  obtain ⟨node, hnode⟩ := look_of_short h hp true
  refine ⟨node.isSome, ?_⟩
  unfold exists?
  rw [hnode]
  rfl

/-- Whether a path of names of permitted length leads to a file can be found out, if it is not in a locked directory. -/
theorem isFile?_of_short (h : s.files.HasShortLinks) (hp : p.IsShort) (hlocked : p.parent ∉ s.locked) :
    ∃ b, s.isFile? p = .ok b := by
  obtain ⟨node, hnode⟩ := look_of_short h hp true
  refine ⟨isFileNode node, ?_⟩
  unfold isFile?
  rw [if_neg (by simpa using hlocked), hnode]
  rfl

end Session

namespace Action

variable {α β : Type} {P : Session → Prop} {Q : α → Session → Prop} {p : Path} {w : WrittenPath}

/-! ### Refused requests -/

theorem isReported_ascribed {e : Failure} (h : e.IsSystem ∨ e.isReported = true) (activity : Activity) (path : Path) :
    (ascribed activity path e).isReported = true := by
  cases e with
  | system error => rfl
  | _ => exact h.resolve_left id

/-- An activity reports refusals. -/
theorem Ensures.during_reported {act : Action α} (h : Ensures P act Q fun e _ => e.IsSystem ∨ e.isReported = true)
    (activity : Activity) (path : Path) :
    Ensures P (Action.during activity path act) Q fun e _ => e.isReported = true := by
  intro s hs
  have hends := h s hs
  rw [perform_during]
  generalize act.perform s = o at hends ⊢
  obtain ⟨r, t⟩ := o
  cases r with
  | ok a => exact hends
  | error e => exact isReported_ascribed hends activity path

/-- An operation that fails in no other way than by being refused. -/
def OnlyRefused (act : Action α) : Prop := Ensures (fun _ => True) act (fun _ _ => True) fun e _ => e.IsSystem

theorem OnlyRefused.pure (a : α) : OnlyRefused (Pure.pure a) := Ensures.pure fun _ _ => trivial

theorem OnlyRefused.refuse (code : SystemCode) (w : WrittenPath) :
    OnlyRefused (MonadExcept.throw (Handout.refuse code w) : Action α) := Ensures.throw fun _ _ => trivial

theorem OnlyRefused.edit (f : Files → Files) : OnlyRefused (Action.edit f) := Ensures.edit fun _ _ => trivial

theorem OnlyRefused.bind {act : Action α} {f : α → Action β} (ha : OnlyRefused act) (hf : ∀ a, OnlyRefused (f a)) :
    OnlyRefused (act >>= f) := Ensures.bind (M := fun _ _ => True) ha hf

theorem OnlyRefused.get_bind {f : Session → Action α} (hf : ∀ s, OnlyRefused (f s)) : OnlyRefused (get >>= f) :=
  Ensures.get_bind fun s => (hf s).mono (fun _ _ => trivial) (fun _ _ h => h) fun _ _ h => h

theorem OnlyRefused.tryCatch {act : Action α} {handler : Failure → Action α} (ha : OnlyRefused act)
    (hh : ∀ e, e.IsSystem → OnlyRefused (handler e)) : OnlyRefused (MonadExcept.tryCatch act handler) :=
  Ensures.tryCatch ha fun e s hs => hh e hs s trivial

/-- As part of an activity, an operation that is refused fails with what is reported. -/
theorem OnlyRefused.during {act : Action α} (h : OnlyRefused act) (activity : Activity) (path : Path) :
    Ensures (fun _ => True) (Action.during activity path act) (fun _ _ => True) fun e _ => e.isReported = true :=
  Ensures.during_reported (h.mono (fun _ hs => hs) (fun _ _ hs => hs) fun _ _ => .inl) activity path

/-- As part of an activity, an operation that changes nothing and has a result as wanted reports its failures. -/
theorem OnlyRefused.during_looks {act : Action α} {keep : α → Prop} (h : OnlyRefused act) (hlooks : Looks act)
    (hkeep : ∀ s a, P s → (act.perform s).1 = .ok a → keep a) (activity : Activity) (path : Path) :
    Ensures P (Action.during activity path act) (fun a s => P s ∧ keep a) fun e _ => e.isReported = true :=
  Ensures.during_reported ((Looks.ensures_result hlooks hkeep).failing
    (h.mono (fun _ _ => trivial) (fun _ _ hs => hs) fun _ _ => .inl)) activity path

/-- What is refused is not about a path with a zero character. -/
theorem onlyRefused_locate (hz : w.path.hasZero = false) (follow : Bool) : OnlyRefused (locate follow w) := by
  refine Ensures.query fun s _ => ?_
  rw [hz, if_neg Bool.false_ne_true]
  cases s.find follow w.path <;> exact trivial

theorem onlyRefused_makeDirectory (hz : w.path.hasZero = false) : OnlyRefused (makeDirectory w) := by
  refine (onlyRefused_locate hz false).bind fun place => ?_
  split
  · exact .refuse _ _
  · exact .edit _

private theorem onlyRefused_unlessDirectory (w : WrittenPath) (e : SystemError) : OnlyRefused (do
    let s ← get
    if Session.isDirectoryNode (s.node? true w.path) then return ()
    throw (.system e) : Action Unit) := by
  refine .get_bind fun s => ?_
  split
  · exact .pure _
  · exact Ensures.throw fun _ _ => trivial

theorem onlyRefused_ensureDirectory (hz : w.path.hasZero = false) : OnlyRefused (ensureDirectory w) := by
  refine (onlyRefused_makeDirectory hz).tryCatch fun e he => ?_
  split
  · exact onlyRefused_unlessDirectory _ _
  · exact Ensures.throw fun _ _ => he

private theorem hasZero_pathPart (hz : p.hasZero = false) (n : Nat) : (pathPart p n).hasZero = false :=
  Path.hasZero_of_subset hz (List.take_subset _ _)

private theorem onlyRefused_makePart (hz : p.hasZero = false) (n : Nat) : OnlyRefused (makePart p n) := by
  induction n with
  | zero => exact onlyRefused_ensureDirectory (hasZero_pathPart hz 0)
  | succ n ih =>
    have hpart : (pathPart p (n + 1)).written.path.hasZero = false := hasZero_pathPart hz (n + 1)
    unfold makePart
    refine (onlyRefused_makeDirectory hpart).tryCatch fun e he => ?_
    split
    · exact ih.bind fun _ => onlyRefused_ensureDirectory hpart
    · exact onlyRefused_unlessDirectory _ _
    · exact Ensures.throw fun _ _ => he

theorem onlyRefused_makeDirectories (hz : p.hasZero = false) : OnlyRefused (makeDirectories p) :=
  onlyRefused_makePart hz _

theorem onlyRefused_writeFile (hz : w.path.hasZero = false) (data : Bytes) : OnlyRefused (writeFile w data) := by
  refine (onlyRefused_locate hz true).bind fun place => ?_
  split
  · exact .edit _
  · exact .edit _
  · exact .refuse _ _

theorem onlyRefused_removeFile (hz : w.path.hasZero = false) : OnlyRefused (removeFile w) := by
  refine (onlyRefused_locate hz false).bind fun place => ?_
  split
  · exact .refuse _ _
  · exact .refuse _ _
  · exact .edit _

theorem onlyRefused_removeDraft (hz : w.path.hasZero = false) : OnlyRefused (removeDraft w) := by
  refine (onlyRefused_removeFile hz).tryCatch fun e he => ?_
  split
  · exact .pure _
  · exact Ensures.throw fun _ _ => he

theorem onlyRefused_rename {source target : WrittenPath} (hs : source.path.hasZero = false)
    (ht : target.path.hasZero = false) : OnlyRefused (rename source target) := by
  have hfail : ∀ code, OnlyRefused (throw (.system (.rename code source.text target.text)) : Action Unit) :=
    fun code => Ensures.throw fun _ _ => trivial
  unfold rename
  rw [hs, ht, Bool.or_self, if_neg Bool.false_ne_true]
  refine .get_bind fun s => ?_
  dsimp only
  split
  · exact hfail _
  · exact hfail _
  · exact hfail _
  · split
    · exact hfail _
    · exact hfail _
    · split
      · exact .pure _
      · exact .edit _

theorem onlyRefused_readFile (hz : p.hasZero = false) : OnlyRefused (readFile p) := by
  refine Ensures.query fun s _ => ?_
  unfold Session.content?
  rw [show p.written.path.hasZero = false from hz, if_neg Bool.false_ne_true]
  split <;> exact trivial

/-- A file is read, or the failure is reported. -/
theorem readFile_reported {keep : Bytes → Prop} (hz : p.hasZero = false)
    (hkeep : ∀ s data, P s → s.content? p.written = .ok data → keep data) :
    Ensures P (Action.during .read p (readFile p)) (fun data s => P s ∧ keep data) fun e _ => e.isReported = true :=
  (onlyRefused_readFile hz).during_looks (Looks.query _) hkeep _ _

private theorem onlyRefused_isFile (p : Path) : OnlyRefused (isFile p) := by
  refine Ensures.query fun s _ => ?_
  unfold Session.isFile? Session.look
  split
  · exact trivial
  · split
    · exact trivial
    · split <;> exact trivial

theorem onlyRefused_filesIn (hz : p.hasZero = false) : OnlyRefused (filesIn p) := by
  refine OnlyRefused.bind (Ensures.query fun s _ => ?_) fun names => ?_
  · unfold Session.names?
    split
    · exact trivial
    · rw [show p.written.path.hasZero = false from hz, if_neg Bool.false_ne_true]
      split <;> exact trivial
  · have htest : ∀ name ∈ names, Ensures (fun _ => True) (isFile (p.child name))
        (fun b _ => True ∧ (b = true → True)) fun e _ => e.IsSystem := fun name _ =>
      (onlyRefused_isFile _).mono (fun _ hs => hs) (fun _ _ _ => ⟨trivial, fun _ => trivial⟩) fun _ _ hs => hs
    exact OnlyRefused.bind ((Ensures.filterM htest).mono (fun _ hs => hs) (fun _ _ _ => trivial) fun _ _ hs => hs)
      fun _ => .pure _

end Action

end Handout
