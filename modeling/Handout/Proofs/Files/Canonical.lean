import Handout.Proofs.Files.Walk

/-!
# Real locations

A path that leads to a directory has that directory as its canonical location (`canonical_of_leads`): a link is never
met while it is being followed, because following its target to the end takes more links than any part of the way,
and links are not nested more deeply than there are links.  Names that meet no link are kept as they are
(`canonical_plain`).
-/

namespace Handout.Files

variable {f : Files} {dir d : Location} {c target : String} {pieces rest qs : List String} {n depth : Nat}
  {pending : List Location}

/-- How the pieces of a link are resolved, when links may be nested so deeply. -/
def deeper (f : Files) : Nat → Option (List Location → Location → List String → Location × Bool)
  | 0 => none
  | depth + 1 => some (canonical f depth)

theorem canonical_eq (f : Files) (depth : Nat) (pending : List Location) :
    canonical f depth pending = canonicalWith f pending (deeper f depth) := by
  cases depth <;> rfl

@[simp] theorem canonical_nil : canonical f depth pending dir [] = (dir, true) := by
  rw [canonical_eq]
  rfl

theorem canonical_stay (h : isStay c = true) :
    canonical f depth pending dir (c :: rest) = canonical f depth pending dir rest := by
  rw [canonical_eq, canonicalWith, if_pos h]

theorem canonical_up : canonical f depth pending dir (".." :: rest) = canonical f depth pending dir.dropLast rest := by
  have h : ¬ isStay ".." = true := by decide
  rw [canonical_eq, canonicalWith, if_neg h, if_pos rfl]

/-- A name under which no link is stored is kept. -/
theorem canonical_name (hc : IsPlain c) (hn : ∀ target, f.get? (dir ++ [c]) ≠ some (.link target)) :
    canonical f depth pending dir (c :: rest) = canonical f depth pending (dir ++ [c]) rest := by
  rw [canonical_eq, canonicalWith, if_neg (by simp [hc.1]), if_neg hc.2]
  cases hx : f.get? (dir ++ [c]) with
  | none => simp only [hx]
  | some node =>
    cases node with
    | link target => exact absurd hx (hn target)
    | directory => simp only [hx]
    | file data executable => simp only [hx]

/-- A link stands for its target, unless it is being followed. -/
theorem canonical_link (hc : IsPlain c) (hn : f.get? (dir ++ [c]) = some (.link target)) :
    canonical f (depth + 1) pending dir (c :: rest) =
      if dir ++ [c] ∈ pending then (descend (dir ++ [c]) rest, false)
      else
        let found := canonical f depth ((dir ++ [c]) :: pending) (linkStart dir target) (Path.pieces target)
        if found.2 then canonical f (depth + 1) pending found.1 rest else (descend found.1 rest, false) := by
  rw [canonical_eq, canonicalWith, if_neg (by simp [hc.1]), if_neg hc.2]
  simp only [hn, deeper, List.contains_iff_mem]
  rfl

theorem canonical_link_zero (hc : IsPlain c) (hn : f.get? (dir ++ [c]) = some (.link target)) :
    canonical f 0 pending dir (c :: rest) = (descend (dir ++ [c]) rest, false) := by
  rw [canonical_eq, canonicalWith, if_neg (by simp [hc.1]), if_neg hc.2]
  simp only [hn, deeper]

/-- A link that is being followed, given as where it is stored and how many links its target takes. -/
structure Pending (f : Files) (n : Nat) (loc : Location) : Prop where
  follows : ∃ dir c target m e, loc = dir ++ [c] ∧ f.get? loc = some (.link target) ∧ n ≤ m ∧
    Leads f (linkStart dir target) (Path.pieces target) m e

theorem Pending.mono {loc : Location} {m : Nat} (h : Pending f m loc) (hn : n ≤ m) : Pending f n loc := by
  obtain ⟨dir, c, target, k, e, hloc, hl, hm, hleads⟩ := h.follows
  exact ⟨dir, c, target, k, e, hloc, hl, by omega, hleads⟩

private theorem canonical_of_leads_pending (h : Leads f dir pieces n d) (hd : pending.Nodup)
    (hp : ∀ loc ∈ pending, Pending f n loc) (hdepth : f.links + 1 ≤ pending.length + depth) :
    canonical f depth pending dir pieces = (d, true) := by
  induction n using Nat.strongRecOn generalizing dir pieces d pending depth with
  | _ n ih =>
    induction pieces generalizing dir with
    | nil =>
      cases h
      rw [canonical_nil]
    | cons c rest ihr =>
      cases h with
      | stay hc h => rw [canonical_stay hc, ihr h]
      | up h => rw [canonical_up, ihr h]
      | down hc hs hn h =>
        rw [canonical_name hc (by simp [hn]), ihr h]
      | @link _ _ _ target _ n hc hs hn h =>
        obtain ⟨m, k, l, hk, hl, rfl⟩ := leads_append.1 h
        -- following the link takes `k` links, but every pending one takes more
        have hnew : dir ++ [c] ∉ pending := by
          intro hmem
          obtain ⟨dir', c', target', m', e, hloc, hlink, hm, hleads⟩ := (hp _ hmem).follows
          obtain ⟨rfl, -⟩ := List.append_inj' hloc rfl
          rw [hn] at hlink
          cases hlink
          have := (hk.unique hleads).1
          omega
        have hpending : ∀ loc ∈ (dir ++ [c]) :: pending, Pending f k loc := by
          intro loc hloc
          rcases List.mem_cons.1 hloc with rfl | hloc
          · exact ⟨dir, c, target, k, m, rfl, hn, Nat.le_refl k, hk⟩
          · exact (hp loc hloc).mono (by omega)
        have hnodup : ((dir ++ [c]) :: pending).Nodup := List.nodup_cons.2 ⟨hnew, hd⟩
        have hbound : ((dir ++ [c]) :: pending).length ≤ f.links := by
          refine length_le_links hnodup fun loc hloc => ?_
          obtain ⟨_, _, target', _, _, _, hlink, _⟩ := (hpending loc hloc).follows
          exact ⟨target', hlink⟩
        rw [List.length_cons] at hbound
        obtain ⟨depth, rfl⟩ : ∃ depth', depth = depth' + 1 := ⟨depth - 1, by omega⟩
        have hdeeper : f.links + 1 ≤ ((dir ++ [c]) :: pending).length + depth := by
          rw [List.length_cons]
          omega
        have htarget := ih k (by omega) hk hnodup hpending hdeeper
        rw [canonical_link hc hn, if_neg hnew, htarget]
        exact ih l (by omega) hl hd (fun loc hloc => (hp loc hloc).mono (by omega)) hdepth

/-- The canonical location of a path that leads to a directory is that directory. -/
theorem canonical_of_leads (h : Leads f dir pieces n d) : canonical f (f.links + 1) [] dir pieces = (d, true) :=
  canonical_of_leads_pending h List.nodup_nil (fun _ h => absurd h List.not_mem_nil) (by simp)

/-- Behind pieces that can be resolved the rest is resolved from where they lead. -/
theorem canonical_append (h : canonical f depth pending dir pieces = (d, true)) :
    canonical f depth pending dir (pieces ++ rest) = canonical f depth pending d rest := by
  induction pieces generalizing dir with
  | nil =>
    rw [canonical_nil] at h
    cases h
    rfl
  | cons c pieces ih =>
    rw [List.cons_append]
    by_cases hstay : isStay c = true
    · rw [canonical_stay hstay] at h ⊢
      exact ih h
    by_cases hup : c = ".."
    · subst hup
      rw [canonical_up] at h ⊢
      exact ih h
    have hc : IsPlain c := ⟨by simpa using hstay, hup⟩
    by_cases hn : ∀ target, f.get? (dir ++ [c]) ≠ some (.link target)
    · rw [canonical_name hc hn] at h ⊢
      exact ih h
    · simp only [not_forall, not_not] at hn
      obtain ⟨target, hn⟩ := hn
      cases depth with
      | zero =>
        rw [canonical_link_zero hc hn] at h
        cases h
      | succ depth =>
        rw [canonical_link hc hn] at h ⊢
        split at h
        · cases h
        · rename_i hp
          rw [if_neg hp]
          simp only at h ⊢
          split at h
          · rename_i hok
            rw [if_pos hok]
            exact ih h
          · cases h

/-- Names that meet no link are kept. -/
theorem canonical_plain (hp : ∀ c ∈ pieces, IsPlain c) (hc : Clear f dir pieces) :
    canonical f depth pending dir pieces = (dir ++ pieces, true) := by
  induction pieces generalizing dir with
  | nil => rw [canonical_nil, List.append_nil]
  | cons c rest ih =>
    have hn : ∀ target, f.get? (dir ++ [c]) ≠ some (.link target) := fun target =>
      hc [c] target (by simp) (by simp)
    have hclear : Clear f (dir ++ [c]) rest := by
      intro first target hne hfirst
      rw [List.append_assoc]
      exact hc _ _ (by simp) ((List.prefix_cons_inj c).2 hfirst)
    rw [canonical_name (hp c (by simp)) hn, ih (fun x hx => hp x (List.mem_cons_of_mem _ hx)) hclear,
      List.append_assoc, List.singleton_append]

/-- The step of `canonical_congr`: the rest of a path is resolved alike if links in links are. -/
private theorem canonical_congr_step {g : Files}
    (h : ∀ x target, f.get? x = some (.link target) ↔ g.get? x = some (.link target))
    (ih : ∀ k, depth = k + 1 → ∀ pending dir pieces, canonical f k pending dir pieces = canonical g k pending dir pieces)
    (dir : Location) (pieces : List String) :
    canonical f depth pending dir pieces = canonical g depth pending dir pieces := by
  induction pieces generalizing dir with
  | nil => rw [canonical_nil, canonical_nil]
  | cons c rest ihr =>
    by_cases hstay : isStay c = true
    · rw [canonical_stay hstay, canonical_stay hstay, ihr]
    by_cases hup : c = ".."
    · subst hup
      rw [canonical_up, canonical_up, ihr]
    have hc : IsPlain c := ⟨by simpa using hstay, hup⟩
    by_cases hn : ∀ target, f.get? (dir ++ [c]) ≠ some (.link target)
    · rw [canonical_name hc hn, canonical_name hc fun target hg => hn target ((h _ _).2 hg), ihr]
    · simp only [not_forall, not_not] at hn
      obtain ⟨target, hn⟩ := hn
      have hn' := (h _ _).1 hn
      cases depth with
      | zero => rw [canonical_link_zero hc hn, canonical_link_zero hc hn']
      | succ depth =>
        rw [canonical_link hc hn, canonical_link hc hn', ih depth rfl]
        simp only [ihr]

/-- Only the links matter for the place that a path stands for. -/
theorem canonical_congr {g : Files}
    (h : ∀ x target, f.get? x = some (.link target) ↔ g.get? x = some (.link target)) :
    canonical f depth pending dir pieces = canonical g depth pending dir pieces := by
  induction depth generalizing pending dir pieces with
  | zero => exact canonical_congr_step h (fun _ hk => by cases hk) dir pieces
  | succ depth ih =>
    refine canonical_congr_step h (fun k hk pending dir pieces => ?_) dir pieces
    cases hk
    exact ih

end Handout.Files
