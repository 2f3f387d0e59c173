import Mathlib
import Handout.Proofs.Archive.Extract
import Handout.Proofs.Files.View

/-!
# The same project is found

A search by depth is bounded by the number of stored entries, which may differ between two sessions that hold the
same directory.  The search ends before the bound: every visit takes one directory away (`weight`), so the same project
is found in both (`findProject_relates`).
-/

namespace Handout

namespace Action

open Session

variable {σ : Type} {visit : σ → Path → Action (Bool × σ)} {J : σ → Session → Session → Prop}
  {E : Failure → Failure → Session → Session → Prop} {Q : Path → Prop} {weight : Path → Nat}

/-- Visits by depth go on alike with any bounds that exceed the weight of what is to be visited. -/
theorem foldByDepth_relates (visits : ∀ acc p, Q p → Relates (J acc) (visit acc p) (visit acc p) (fun r => J r.2) E)
    (children : ∀ acc p, Q p → Relates (J acc) (readableDirectoriesIn p) (readableDirectoriesIn p)
      (fun ps s t => J acc s t ∧ (∀ q ∈ ps, Q q) ∧ (ps.map weight).sum < weight p) E)
    {n m : Nat} {queue : List Path} (hq : ∀ p ∈ queue, Q p) (hn : (queue.map weight).sum ≤ n)
    (hm : (queue.map weight).sum ≤ m) (hpos : ∀ p, Q p → 0 < weight p) (acc : σ) :
    Relates (J acc) (foldByDepth visit n acc queue) (foldByDepth visit m acc queue) J E := by
  induction n generalizing m queue acc with
  | zero =>
    cases queue with
    | nil => cases m <;> exact Relates.pure fun _ _ hst => hst
    | cons p queue =>
      have hp := hpos p (hq p (List.mem_cons_self ..))
      rw [List.map_cons, List.sum_cons] at hn
      omega
  | succ n ih =>
    cases queue with
    | nil => cases m <;> exact Relates.pure fun _ _ hst => hst
    | cons p queue =>
      have hQ := hq p (List.mem_cons_self ..)
      have hp := hpos p hQ
      rw [List.map_cons, List.sum_cons] at hn hm
      obtain ⟨m, rfl⟩ : ∃ k, m = k + 1 := ⟨m - 1, by omega⟩
      unfold foldByDepth
      refine (visits acc p hQ).bind fun r => ?_
      obtain ⟨stop, acc'⟩ := r
      dsimp only
      split
      · exact Relates.pure fun _ _ hst => hst
      · refine (children acc' p hQ).bind fun ps => Relates.of_and fun hps => ?_
        have hsum : ((queue ++ ps).map weight).sum < weight p + (queue.map weight).sum := by
          rw [List.map_append, List.sum_append]
          omega
        refine ih (fun q hmem => ?_) (by omega) (by omega) acc'
        rcases List.mem_append.1 hmem with hmem | hmem
        · exact hq q (List.mem_cons_of_mem _ hmem)
        · exact hps.1 q hmem

end Action

namespace Archive

open Handout.Action Session

variable {s t : Session} {f : Files} {top : Location} {rel : List String} {R : Session → Session → Prop}

/-- The directory that is searched and all that is stored in it, by names. -/
private def places (f : Files) (top : Location) : List (List String) := [] :: f.listing top

/-- How much is stored at and below a path of the directory that is searched. -/
private def weight (f : Files) (top : Location) (p : Path) : Nat :=
  (places f top).countP fun rel => p.parts.isPrefixOf (top ++ rel)

private theorem mem_places (hf : f.WellFormed) (hd : f.get? top = some .directory) :
    rel ∈ places f top ↔ f.get? (top ++ rel) ≠ none := by
  unfold places
  rw [List.mem_cons, Files.mem_listing hf]
  constructor
  · rintro (rfl | ⟨-, h⟩)
    · rw [List.append_nil, hd]
      exact Option.some_ne_none _
    · exact h
  · intro h
    by_cases hr : rel = []
    · exact .inl hr
    · exact .inr ⟨hr, h⟩

private theorem weight_path (rel : List String) :
    weight f top (Location.path (top ++ rel)) = (places f top).countP fun r => rel.isPrefixOf r := by
  refine List.countP_congr fun r _ => ?_
  rw [List.isPrefixOf_iff_prefix, List.isPrefixOf_iff_prefix]
  exact List.prefix_append_right_inj top

private theorem countP_add_le {α : Type} {p q : α → Bool} (hpq : ∀ a, p a = true → q a = false) (as : List α) :
    as.countP p + as.countP q ≤ as.countP fun a => p a || q a := by
  induction as with
  | nil => exact Nat.le_refl _
  | cons a as ih =>
    rw [List.countP_cons, List.countP_cons, List.countP_cons]
    cases hp : p a with
    | true =>
      rw [hpq a hp]
      simp
      omega
    | false =>
      cases q a <;> simp <;> omega

/-- Elements with one of several properties that exclude each other. -/
private theorem sum_countP_le {α ι : Type} {P : ι → α → Bool} {l : List ι} (hl : l.Nodup)
    (hP : ∀ i j a, P i a = true → P j a = true → i = j) (as : List α) :
    (l.map fun i => as.countP (P i)).sum ≤ as.countP fun a => l.any fun i => P i a := by
  induction l with
  | nil => exact Nat.zero_le _
  | cons i l ih =>
    obtain ⟨hi, hl⟩ := List.nodup_cons.1 hl
    have hdisjoint : ∀ a, P i a = true → (l.any fun j => P j a) = false := by
      intro a ha
      rw [List.any_eq_false]
      intro j hj hja
      exact hi (hP i j a ha hja ▸ hj)
    rw [List.map_cons, List.sum_cons]
    simp only [List.any_cons]
    exact Nat.le_trans (Nat.add_le_add_left (ih hl) _) (countP_add_le hdisjoint as)

/-- Less is stored at and below some entries of a directory than at and below the directory. -/
private theorem sum_weight_lt (hf : f.WellFormed) (hd : f.get? top = some .directory) (hn : f.get? (top ++ rel) ≠ none)
    {names : List String} (hnames : names.Nodup) :
    ((names.map (Location.path (top ++ rel)).child).map (weight f top)).sum < weight f top (Location.path (top ++ rel)) := by
  have hchild : ∀ c, (Location.path (top ++ rel)).child c = Location.path (top ++ (rel ++ [c])) := by
    intro c
    rw [← List.append_assoc]
    rfl
  have hsum := sum_countP_le (P := fun c r => (rel ++ [c]).isPrefixOf r) hnames (fun c c' r hc hc' => by
    rw [List.isPrefixOf_iff_prefix] at hc hc'
    have heq := List.prefix_of_prefix_length_le hc hc' (by simp)
    simpa using List.IsPrefix.eq_of_length heq (by simp)) (places f top)
  have hself : 0 < (places f top).countP fun r => r == rel :=
    List.countP_pos_iff.2 ⟨rel, (mem_places hf hd).2 hn, by simp⟩
  have hapart := countP_add_le (p := fun r => r == rel) (q := fun r => names.any fun c => (rel ++ [c]).isPrefixOf r)
    (fun r hr => by
      rw [List.any_eq_false]
      intro c _ hc
      rw [eq_of_beq hr, List.isPrefixOf_iff_prefix] at hc
      exact not_concat_prefix_self rel c hc) (places f top)
  have hall : ((places f top).countP fun r => (r == rel) || names.any fun c => (rel ++ [c]).isPrefixOf r) ≤
      (places f top).countP fun r => rel.isPrefixOf r := by
    refine List.countP_mono_left fun r _ hr => ?_
    rw [List.isPrefixOf_iff_prefix]
    rcases Bool.or_eq_true_iff.1 hr with hr | hr
    · obtain rfl : r = rel := eq_of_beq hr
      exact List.prefix_refl _
    · obtain ⟨c, -, hc⟩ := List.any_eq_true.1 hr
      exact (List.prefix_append rel [c]).trans (List.isPrefixOf_iff_prefix.1 hc)
  rw [List.map_map, weight_path]
  have hmap : names.map (weight f top ∘ (Location.path (top ++ rel)).child) =
      names.map fun c => (places f top).countP fun r => (rel ++ [c]).isPrefixOf r := by
    refine List.map_congr_left fun c _ => ?_
    rw [Function.comp_apply, hchild, weight_path]
  rw [hmap]
  omega

/-- The bound of a search exceeds what is stored. -/
private theorem weight_le (hf : f.WellFormed) {g : Files} (hsame : ∀ rel, g.get? (top ++ rel) = f.get? (top ++ rel))
    (p : Path) : weight f top p ≤ g.entries.length + 2 := by
  have hsub : ((f.listing top).map fun rel => top ++ rel) ⊆ g.entries.map Prod.fst := by
    intro x hx
    obtain ⟨rel, hrel, rfl⟩ := List.mem_map.1 hx
    obtain ⟨hne, hn⟩ := (Files.mem_listing hf).1 hrel
    rw [← hsame] at hn
    obtain ⟨node, hnode⟩ := (Files.get?_eq_some_iff_mem (by simp [hne])).1 hn
    exact List.mem_map.2 ⟨_, hnode, rfl⟩
  have hnodup : ((f.listing top).map fun rel => top ++ rel).Nodup :=
    Files.nodup_listing.map fun a b h => List.append_cancel_left h
  have hlength := (List.subperm_of_subset hnodup hsub).length_le
  rw [List.length_map, List.length_map] at hlength
  have hcount : weight f top p ≤ (places f top).length := List.countP_le_length
  unfold places at hcount
  rw [List.length_cons] at hcount
  omega

private theorem weight_pos (hf : f.WellFormed) (hd : f.get? top = some .directory) {p : Path} (hp : IsDirectoryIn f top p) :
    0 < weight f top p := by
  obtain ⟨rel, rfl, hrel⟩ := hp
  have hlt := sum_weight_lt hf hd (by rw [hrel]; exact Option.some_ne_none _) (List.nodup_nil)
  exact Nat.lt_of_le_of_lt (Nat.zero_le _) hlt

private theorem looks_isRealDirectory (p : Path) : Looks (do
    if ← isDirectory p then return !(← isLink p) else return false : Action Bool) := by
  refine (looks_isDirectory p).bind fun b => ?_
  cases b with
  | true => exact (Looks.query _).bind fun _ => Looks.pure _
  | false => exact Looks.pure _

private theorem readableDirectoriesIn_relates (hf : f.WellFormed) (hd : f.get? top = some .directory) {p : Path}
    (hp : IsDirectoryIn f top p) (hleft : ∀ s t, R s t → Steady f top s) (hview : ∀ s t, R s t → SameView s t p)
    (hlog : ∀ s t record, R s t → R { s with log := s.log ++ [record] } { t with log := t.log ++ [record] }) :
    Relates R (readableDirectoriesIn p) (readableDirectoriesIn p)
      (fun ps s t => R s t ∧ (∀ q ∈ ps, IsDirectoryIn f top q) ∧ (ps.map (weight f top)).sum < weight f top p)
      (Same fun _ => R) := by
  intro s t hst
  have hs := hleft s t hst
  have hinside := hp.readableDirectoriesIn_ensures (P := Steady f top) (fun _ h => h)
    (fun _ _ h => ⟨⟨h.sound.files, h.sound.workingDir⟩, h.same, h.noLink⟩) s hs
  obtain ⟨hl, hr, hsame⟩ := agrees_directoriesIn (hview s t hst) hs.sound
  unfold readableDirectoriesIn at hinside ⊢
  rw [perform_tryCatch] at hinside
  rw [perform_tryCatch, perform_tryCatch]
  rcases hperform : (directoriesIn p).perform s with ⟨r, s'⟩
  rcases hperform' : (directoriesIn p).perform t with ⟨r', t'⟩
  rw [hperform] at hl hsame hinside
  rw [hperform'] at hr hsame
  dsimp only at hl hr hsame
  subst hl hr hsame
  cases r with
  | ok ps =>
    refine ⟨rfl, hst, hinside.2, ?_⟩
    obtain ⟨names, hnames, rfl⟩ := entriesWhere_eq_ok looks_isRealDirectory (congrArg Prod.fst hperform)
    obtain ⟨rel, rfl, hrel⟩ := hp
    obtain ⟨loc, -, rfl⟩ := names?_eq_ok hnames
    refine sum_weight_lt hf hd (by rw [hrel]; exact Option.some_ne_none _) ?_
    exact (sortBy_perm _ _).nodup_iff.2 (Files.nodup_names.filter _)
  | error e =>
    dsimp only
    split
    · exact ⟨rfl, hlog _ _ _ hst, fun q hq => absurd hq List.not_mem_nil, weight_pos hf hd hp⟩
    · exact ⟨rfl, hst⟩

/-- A project is found alike in two sessions that show the same directory. -/
theorem findProject_relates (archive : Path) (hf : f.WellFormed) (hd : f.get? top = some .directory)
    (hleft : ∀ s t, R s t → Steady f top s) (hright : ∀ s t, R s t → Steady f top t)
    (hview : ∀ s t, R s t → SameView s t top.path)
    (hlog : ∀ s t record, R s t → R { s with log := s.log ++ [record] } { t with log := t.log ++ [record] }) :
    Relates R (findProject archive top.path) (findProject archive top.path)
      (fun root s t => R s t ∧ IsDirectoryIn f top root) (Same fun _ => R) := by
  let J : Option Path → Session → Session → Prop := fun acc s t => R s t ∧ ∀ p, acc = some p → IsDirectoryIn f top p
  have hviews : ∀ p, IsDirectoryIn f top p → ∀ s t, R s t → SameView s t p := by
    rintro p ⟨rel, rfl, hrel⟩ s t hst
    have hproper : ∀ c ∈ rel, IsPlain c := fun c hc =>
      (hf.proper_of_mem (by rw [hrel]; exact Option.some_ne_none _) hc).plain
    exact (hview s t hst).append hproper
  have hvisits : ∀ (acc : Option Path) p, IsDirectoryIn f top p →
      Relates (J acc) (do if ← Ecosystem.isProjectRoot p then return (true, some p) else return (false, none))
        (do if ← Ecosystem.isProjectRoot p then return (true, some p) else return (false, none))
        (fun r : Bool × Option Path => J r.2) (Same fun _ => R) := by
    intro acc p hp
    have hlooks := relates_of_agrees fun s t (hst : R s t) =>
      Ecosystem.agrees_isProjectRoot (hviews p hp s t hst) (hleft s t hst).sound
    refine (hlooks.mono (fun s t (hst : J acc s t) => hst.1) (fun _ _ _ hst => hst) fun _ _ _ _ hst => hst).bind
      fun found => ?_
    cases found with
    | true =>
      refine Relates.pure fun s t hst => ⟨hst, fun q hq => ?_⟩
      cases hq
      exact hp
    | false => exact Relates.pure fun s t hst => ⟨hst, nofun⟩
  have hchildren : ∀ (acc : Option Path) p, IsDirectoryIn f top p →
      Relates (J acc) (readableDirectoriesIn p) (readableDirectoriesIn p)
        (fun ps s t => J acc s t ∧ (∀ q ∈ ps, IsDirectoryIn f top q) ∧ (ps.map (weight f top)).sum < weight f top p)
        (Same fun _ => R) := by
    intro acc p hp
    refine (readableDirectoriesIn_relates (R := J acc) hf hd hp (fun s t hst => hleft s t hst.1)
      (fun s t hst => hviews p hp s t hst.1) fun s t record hst => ⟨hlog s t record hst.1, hst.2⟩).mono
      (fun _ _ hst => hst) (fun _ _ _ hst => hst) fun _ _ _ _ hst => ⟨hst.1, hst.2.1⟩
  have htop : IsDirectoryIn f top top.path := ⟨[], by rw [List.append_nil], by rw [List.append_nil]; exact hd⟩
  unfold findProject findProject? findDirectory directoryBound
  refine Relates.bind (M := J) ?_ fun found => ?_
  · simp only [bind_assoc, pure_bind]
    refine Relates.get_bind fun s t hst => ?_
    -- each session takes the bound from its own files, and both bounds exceed what is below the top
    refine (foldByDepth_relates (n := s.files.entries.length + 2) (m := t.files.entries.length + 2) hvisits hchildren (by simpa using htop) ?_ ?_ (fun p hp => weight_pos hf hd hp)
      none).mono ?_ (fun _ _ _ hst => hst) fun _ _ _ _ hst => hst
    · simpa using weight_le hf (hleft s t hst).same top.path
    · simpa using weight_le hf (hright s t hst).same top.path
    · rintro a b ⟨rfl, rfl⟩
      exact ⟨hst, nofun⟩
  · cases found with
    | none => exact Relates.throw fun s t hst => ⟨rfl, hst.1⟩
    | some root => exact Relates.pure fun s t hst => ⟨hst.1, hst.2 root rfl⟩

end Archive

end Handout
