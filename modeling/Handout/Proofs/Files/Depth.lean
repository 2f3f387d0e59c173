import Mathlib.Data.List.Nodup
import Handout.Proofs.Files.Look

/-!
# The order of a traversal by depth

A traversal by depth keeps the directories that it has still to visit in a queue, and puts the subdirectories of the
one it visits behind all others.  `Files.visits` is the order in which it comes to them: by depth and, at one depth, in
order of the names from the top (`pairwise_visits`).  That cousins come in order as well is an invariant of the queue:
whatever stands before something stands with its subdirectories before the subdirectories of that (`Precedes`).  With
a bound that exceeds the number of stored entries all directories are visited (`mem_visits`).
-/

namespace Handout

/-- A list of names comes before another one: it is shorter, or as long and smaller in order of the names. -/
def Before (x y : List String) : Prop := x.length < y.length ∨ x.length = y.length ∧ x < y

instance (x y : List String) : Decidable (Before x y) := inferInstanceAs (Decidable (_ ∨ _))

/-- A list of names comes before another one, and the second one before whatever is one name longer than the first. -/
def Precedes (x y : List String) : Prop := Before x y ∧ ∀ c, Before y (x ++ [c])

section Before

variable {x y z : List String}

theorem append_lt_append (hxy : x < y) (hlength : x.length = y.length) (u v : List String) : x ++ u < y ++ v := by
  induction x generalizing y with
  | nil =>
    cases y with
    | nil => exact absurd hxy (List.lt_irrefl [])
    | cons b y => cases hlength
  | cons a x ih =>
    cases y with
    | nil => cases hlength
    | cons b y =>
      rw [List.cons_append, List.cons_append, List.cons_lt_cons_iff]
      rcases List.cons_lt_cons_iff.1 hxy with hab | ⟨hab, hrest⟩
      · exact .inl hab
      · exact .inr ⟨hab, ih hrest (Nat.succ.inj hlength)⟩

theorem Before.irrefl : ¬ Before x x := by
  rintro (h | ⟨-, h⟩)
  · exact absurd h (Nat.lt_irrefl _)
  · exact List.lt_irrefl x h

theorem Before.asymm (h : Before x y) : ¬ Before y x := by
  rintro (h' | ⟨hlength, h'⟩)
  · rcases h with h | ⟨hlength, -⟩ <;> omega
  · rcases h with h | ⟨-, h⟩
    · omega
    · exact List.lt_asymm h h'

theorem Before.of_shorter (h : x.length < y.length) : Before x y := .inl h

/-- What comes before something comes before all that begins with it. -/
theorem Before.of_prefix (h : Before x y) (hz : y <+: z) : Before x z := by
  rcases Nat.lt_or_ge y.length z.length with hlonger | hle
  · rcases h with h | ⟨h, -⟩ <;> exact .of_shorter (by omega)
  · rwa [← hz.eq_of_length (Nat.le_antisymm hz.length_le hle)]

theorem Before.concat (h : Before x y) (c c' : String) : Before (x ++ [c]) (y ++ [c']) := by
  unfold Before
  rw [List.length_append, List.length_append, List.length_singleton, List.length_singleton]
  rcases h with h | ⟨hlength, h⟩
  · exact .inl (by omega)
  · exact .inr ⟨by omega, append_lt_append h hlength _ _⟩

/-- What stands before something stands with its entries before the entries of that. -/
theorem Precedes.entry (h : Precedes x y) (c : String) : Precedes y (x ++ [c]) := ⟨h.2 c, fun c' => h.1.concat c c'⟩

/-- The first element that passes a test is the least one by depth and names that does. -/
theorem find?_of_pairwise {l : List (List String)} {test : List String → Bool} (h : l.Pairwise Before)
    (hx : l.find? test = some x) : x ∈ l ∧ test x = true ∧ ∀ y ∈ l, test y = true → ¬ Before y x := by
  obtain ⟨htest, before, after, rfl, hbefore⟩ := List.find?_eq_some_iff_append.1 hx
  refine ⟨by simp, htest, fun y hy hpass hless => ?_⟩
  rw [List.pairwise_append, List.pairwise_cons] at h
  rcases List.mem_append.1 hy with hy | hy
  · have hfails := hbefore y hy
    rw [hpass] at hfails
    cases hfails
  · rcases List.mem_cons.1 hy with rfl | hy
    · exact Before.irrefl hless
    · exact (h.2.1.1 y hy).asymm hless

end Before

/-- Different names are sorted strictly. -/
theorem pairwise_sortNames {names : List String} (h : names.Nodup) : (sortNames names).Pairwise (· < ·) := by
  have hnodup : (sortNames names).Nodup := (sortBy_perm _ _).nodup_iff.2 h
  have hsorted : (sortNames names).Pairwise fun a b => decide (a ≤ b) = true := by
    refine sortBy_pairwise (fun a b c hab hbc => ?_) (fun a b => ?_) names
    · exact decide_eq_true (String.le_trans (of_decide_eq_true hab) (of_decide_eq_true hbc))
    · exact (String.le_total a b).imp decide_eq_true decide_eq_true
  refine (hsorted.and hnodup).imp fun {a b} hab => ?_
  exact String.not_le.1 fun hba => hab.2 (String.le_antisymm (of_decide_eq_true hab.1) hba)

namespace Files

variable {f : Files} {d : Location} {rel x : List String} {queue : List (List String)} {n : Nat}

/-- The subdirectories of a directory below a location, in order of their names. -/
def subdirectories (f : Files) (d : Location) (rel : List String) : List (List String) :=
  (sortNames ((f.names (d ++ rel)).filter fun c => Session.isDirectoryNode (f.get? (d ++ (rel ++ [c]))))).map
    fun c => rel ++ [c]

/-- The directories that are visited when some are to be visited and their subdirectories put behind them; there are
at most so many visits. -/
def visits (f : Files) (d : Location) : Nat → List (List String) → List (List String)
  | 0, _ => []
  | _, [] => []
  | n + 1, rel :: queue => rel :: visits f d n (queue ++ f.subdirectories d rel)

/-! ### One visit -/

theorem mem_subdirectories :
    x ∈ f.subdirectories d rel ↔ ∃ c, x = rel ++ [c] ∧ f.get? (d ++ (rel ++ [c])) = some .directory := by
  unfold subdirectories sortNames
  rw [List.mem_map]
  constructor
  · rintro ⟨c, hc, rfl⟩
    rw [(sortBy_perm _ _).mem_iff, List.mem_filter, Session.isDirectoryNode_iff] at hc
    exact ⟨c, rfl, hc.2⟩
  · rintro ⟨c, rfl, hc⟩
    refine ⟨c, ?_, rfl⟩
    rw [(sortBy_perm _ _).mem_iff, List.mem_filter, Session.isDirectoryNode_iff, mem_names]
    refine ⟨?_, hc⟩
    rw [List.append_assoc, hc]
    exact Option.some_ne_none _

private theorem pairwise_subdirectories : (f.subdirectories d rel).Pairwise Precedes := by
  have hnodup : (f.names (d ++ rel)).Nodup := nodup_names
  have hsorted := pairwise_sortNames (hnodup.filter fun c => Session.isDirectoryNode (f.get? (d ++ (rel ++ [c]))))
  unfold subdirectories
  refine List.pairwise_map.2 (hsorted.imp fun {c c'} hc => ⟨.inr ⟨by simp, ?_⟩, fun _ => .of_shorter (by simp)⟩)
  exact List.append_left_lt (List.cons_lt_cons_iff.2 (.inl hc))

/-- Putting the subdirectories of the first directory behind all others keeps the queue in order. -/
theorem pairwise_queue (h : (rel :: queue).Pairwise Precedes) :
    (queue ++ f.subdirectories d rel).Pairwise Precedes := by
  obtain ⟨hfirst, hqueue⟩ := List.pairwise_cons.1 h
  refine List.pairwise_append.2 ⟨hqueue, pairwise_subdirectories, fun y hy z hz => ?_⟩
  obtain ⟨c, rfl, -⟩ := mem_subdirectories.1 hz
  exact (hfirst y hy).entry c

/-! ### All visits -/

/-- Whatever is visited lies at or below something in the queue. -/
theorem exists_of_mem_visits (h : x ∈ f.visits d n queue) : ∃ y ∈ queue, y <+: x := by
  induction n generalizing queue with
  | zero => exact absurd h List.not_mem_nil
  | succ n ih =>
    cases queue with
    | nil => exact absurd h List.not_mem_nil
    | cons rel queue =>
      rcases List.mem_cons.1 h with rfl | h
      · exact ⟨x, List.mem_cons_self .., List.prefix_refl x⟩
      · obtain ⟨y, hy, hyx⟩ := ih h
        rcases List.mem_append.1 hy with hy | hy
        · exact ⟨y, List.mem_cons_of_mem _ hy, hyx⟩
        · obtain ⟨c, rfl, -⟩ := mem_subdirectories.1 hy
          exact ⟨rel, List.mem_cons_self .., (List.prefix_append rel [c]).trans hyx⟩

theorem directory_of_mem_visits (hqueue : ∀ y ∈ queue, f.get? (d ++ y) = some .directory)
    (h : x ∈ f.visits d n queue) : f.get? (d ++ x) = some .directory := by
  induction n generalizing queue with
  | zero => exact absurd h List.not_mem_nil
  | succ n ih =>
    cases queue with
    | nil => exact absurd h List.not_mem_nil
    | cons rel queue =>
      rcases List.mem_cons.1 h with rfl | h
      · exact hqueue x (List.mem_cons_self ..)
      · refine ih (fun y hy => ?_) h
        rcases List.mem_append.1 hy with hy | hy
        · exact hqueue y (List.mem_cons_of_mem _ hy)
        · obtain ⟨c, rfl, hc⟩ := mem_subdirectories.1 hy
          exact hc

/-- The visits are in order. -/
theorem pairwise_visits (h : queue.Pairwise Precedes) : (f.visits d n queue).Pairwise Before := by
  induction n generalizing queue with
  | zero => exact .nil
  | succ n ih =>
    cases queue with
    | nil => exact .nil
    | cons rel queue =>
      refine List.pairwise_cons.2 ⟨fun x hx => ?_, ih (pairwise_queue h)⟩
      obtain ⟨y, hy, hyx⟩ := exists_of_mem_visits hx
      refine Before.of_prefix ?_ hyx
      rcases List.mem_append.1 hy with hy | hy
      · exact ((List.pairwise_cons.1 h).1 y hy).1
      · obtain ⟨c, rfl, -⟩ := mem_subdirectories.1 hy
        exact .of_shorter (by simp)

/-- Visits that end before the bound leave nothing out. -/
theorem visits_closed (h : (f.visits d n queue).length < n) :
    queue ⊆ f.visits d n queue ∧ ∀ x ∈ f.visits d n queue, f.subdirectories d x ⊆ f.visits d n queue := by
  induction n generalizing queue with
  | zero => exact absurd h (Nat.not_lt_zero _)
  | succ n ih =>
    cases queue with
    | nil => exact ⟨List.nil_subset _, fun x hx => absurd hx List.not_mem_nil⟩
    | cons rel queue =>
      have hless : (f.visits d n (queue ++ f.subdirectories d rel)).length < n := Nat.lt_of_succ_lt_succ h
      obtain ⟨hqueue, hclosed⟩ := ih hless
      have hrest : f.visits d n (queue ++ f.subdirectories d rel) ⊆ f.visits d (n + 1) (rel :: queue) :=
        List.subset_cons_self ..
      rw [List.append_subset] at hqueue
      refine ⟨List.cons_subset.2 ⟨List.mem_cons_self .., List.Subset.trans hqueue.1 hrest⟩, fun x hx => ?_⟩
      rcases List.mem_cons.1 hx with rfl | hx
      · exact List.Subset.trans hqueue.2 hrest
      · exact List.Subset.trans (hclosed x hx) hrest

/-- There are no more visits than stored entries, and that of the top. -/
theorem length_visits_le (hd : f.get? d = some .directory) : (f.visits d n [[]]).length ≤ f.entries.length + 1 := by
  have hdirectory : ∀ x ∈ f.visits d n [[]], f.get? (d ++ x) = some .directory := fun x hx =>
    directory_of_mem_visits (fun y hy => by rw [List.mem_singleton.1 hy, List.append_nil, hd]) hx
  have hnodup : (f.visits d n [[]]).Nodup :=
    (pairwise_visits (List.pairwise_singleton _ _)).imp fun hxy => fun he => Before.irrefl (he ▸ hxy)
  have hsub : (f.visits d n [[]]).map (d ++ ·) ⊆ [] :: f.entries.map Prod.fst := by
    intro loc hloc
    obtain ⟨x, hx, rfl⟩ := List.mem_map.1 hloc
    by_cases hne : d ++ x = []
    · rw [hne]
      exact List.mem_cons_self ..
    · obtain ⟨node, hnode⟩ := (get?_eq_some_iff_mem hne).1 (by rw [hdirectory x hx]; exact Option.some_ne_none _)
      exact List.mem_cons_of_mem _ (List.mem_map.2 ⟨_, hnode, rfl⟩)
  have hlength := ((hnodup.map fun _ _ he => List.append_cancel_left he).subperm hsub).length_le
  rwa [List.length_map, List.length_cons, List.length_map] at hlength

/-- With a bound that exceeds the number of directories, the directories at and below a directory are visited. -/
theorem mem_visits (hf : f.WellFormed) (hd : f.get? d = some .directory) (hn : f.entries.length + 1 < n) :
    x ∈ f.visits d n [[]] ↔ f.get? (d ++ x) = some .directory := by
  have hless : (f.visits d n [[]]).length < n := Nat.lt_of_le_of_lt (length_visits_le hd) hn
  obtain ⟨htop, hclosed⟩ := visits_closed hless
  constructor
  · exact directory_of_mem_visits fun y hy => by rw [List.mem_singleton.1 hy, List.append_nil, hd]
  · intro hx
    induction x using List.reverseRecOn with
    | nil => exact htop (List.mem_cons_self ..)
    | append_singleton x c ih =>
      have hparent : f.get? (d ++ x) = some .directory := hf.parent (by
        rw [List.append_assoc, hx]
        exact Option.some_ne_none _)
      exact hclosed x (ih hparent) (mem_subdirectories.2 ⟨c, rfl, hx⟩)

/-! ### The first visit that passes a test -/

variable {test : List String → Bool}

/-- No visit passes a test if and only if no directory does. -/
theorem find?_visits_eq_none (hf : f.WellFormed) (hd : f.get? d = some .directory) (hn : f.entries.length + 1 < n) :
    (f.visits d n [[]]).find? test = none ↔ ∀ rel, f.get? (d ++ rel) = some .directory → test rel = false := by
  rw [List.find?_eq_none]
  refine forall_congr' fun rel => ?_
  rw [mem_visits hf hd hn, Bool.not_eq_true]

/-- The first visit that passes a test comes to a directory, and no directory before it passes. -/
theorem least_of_find?_visits (hf : f.WellFormed) (hd : f.get? d = some .directory) (hn : f.entries.length + 1 < n)
    (hx : (f.visits d n [[]]).find? test = some x) : f.get? (d ++ x) = some .directory ∧ test x = true ∧
      ∀ other, f.get? (d ++ other) = some .directory → test other = true → ¬ Before other x := by
  obtain ⟨hvisited, hpassed, hleast⟩ := find?_of_pairwise (pairwise_visits (List.pairwise_singleton _ _)) hx
  exact ⟨(mem_visits hf hd hn).1 hvisited, hpassed, fun other hother => hleast other ((mem_visits hf hd hn).2 hother)⟩

end Files

end Handout
