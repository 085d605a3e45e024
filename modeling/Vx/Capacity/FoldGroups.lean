import Vx.Capacity.FoldReports

namespace Vx.Capacity.Fold

open List
open Tarjan (Reach)

variable {p : Program} {rank : ℕ → ℕ} {budgets : Budgets} {base : List Diagnostic} {f : Fold}
  {done : ℕ → String → Prop} {n : ℕ} {space : String} {scc : List ℕ}

structure Group (p : Program) (rank : ℕ → ℕ) (scc : List ℕ) : Prop where
  nonempty : scc ≠ []
  nodup : scc.Nodup
  same : ∀ i ∈ scc, ∀ j ∈ scc, rank i = rank j
  leaves : ∀ i ∈ scc, ∀ g ∈ p.succ i, g ∉ scc → rank g < rank i

structure Inv (p : Program) (rank : ℕ → ℕ) (budgets : Budgets) (base : List Diagnostic) (f : Fold)
    (done : ℕ → String → Prop) : Prop where
  totals : Totals p rank f done
  reports : Reports p budgets base f done

theorem Group.skip_iff (hG : Group p rank scc) {i g : ℕ} (hi : i ∈ scc) (hg : g ∈ p.succ i) :
    decide (g ∈ scc) = false ↔ rank g < rank i := by
  rw [decide_eq_false_iff_not]
  constructor
  · exact hG.leaves i hi g hg
  · intro hlt hmem
    have := hG.same i hi g hmem
    omega

variable {part : List ℕ}

theorem settleAll_totals (hG : Group p rank scc) (hdone : ∀ i ∈ scc, ∀ g ∈ p.succ i, g ∉ scc → done g space) (hpart : part.Nodup) (hsub : ∀ i ∈ part, i ∈ scc) (hnew : ∀ i ∈ part, ¬done i space)
    (h : Totals p rank f done) :
    Totals p rank (part.foldl (fun f i => settle p f i space (fun callee => callee ∈ scc)) f)
      fun m s => done m s ∨ m ∈ part ∧ s = space := by
  induction part generalizing f done with
  | nil => simpa using h
  | cons i part ih =>
    obtain ⟨hi, hpart⟩ := List.nodup_cons.mp hpart
    have hiscc : i ∈ scc := hsub i mem_cons_self
    have hsettle := settle_totals h (hnew i mem_cons_self) (fun g hg => hG.skip_iff hiscc hg)
      (fun g hg hlt => hdone i hiscc g hg (by simpa using (hG.skip_iff hiscc hg).mpr hlt))
    have hrest := ih (fun j hj g hg hout => Or.inl (hdone j hj g hg hout)) hpart
      (fun j hj => hsub j (mem_cons_of_mem _ hj)) ?_ hsettle
    · simpa only [foldl_cons, mem_cons, or_and_right, or_assoc] using hrest
    · rintro j hj (hd | ⟨rfl, _⟩)
      · exact hnew j (mem_cons_of_mem _ hj) hd
      · exact hi hj

theorem settleAll_reports {skip : ℕ → Bool} (hnew : ∀ i ∈ part, ¬done i space) (h : Reports p budgets base f done) :
    Reports p budgets base (part.foldl (fun f i => settle p f i space skip) f) done := by
  induction part generalizing f with
  | nil => exact h
  | cons i part ih =>
    exact ih (fun j hj => hnew j (mem_cons_of_mem _ hj)) (settle_reports h (hnew i mem_cons_self))

theorem le_max_word (a b : UInt64) : a ≤ max a b ∧ b ≤ max a b := by
  change (a ≤ if a ≤ b then b else a) ∧ b ≤ if a ≤ b then b else a
  split
  · rename_i h
    exact ⟨h, UInt64.le_refl _⟩
  · rename_i h
    exact ⟨UInt64.le_refl _, UInt64.le_of_lt (UInt64.not_le.mp h)⟩

theorem le_foldl_max (words : List UInt64) (a : UInt64) :
    a ≤ words.foldl max a ∧ ∀ x ∈ words, x ≤ words.foldl max a := by
  induction words generalizing a with
  | nil => simp
  | cons b words ih =>
    obtain ⟨hacc, hrest⟩ := ih (max a b)
    refine ⟨UInt64.le_trans (le_max_word a b).1 hacc, fun x hx => ?_⟩
    rcases List.mem_cons.mp hx with rfl | hx
    · exact UInt64.le_trans (le_max_word a x).2 hacc
    · exact hrest x hx

theorem own_le_perActivation (hn : n ∈ scc) : own p n space ≤ perActivation p scc space :=
  (le_foldl_max _ 0).2 _ (mem_map_of_mem hn)

theorem markAll_eq (part : List ℕ) (f : Fold) (space : String) :
    (part.foldl (fun f i => f.markReported i space) f).total = f.total ∧
      (part.foldl (fun f i => f.markReported i space) f).peakEdge = f.peakEdge ∧
      (part.foldl (fun f i => f.markReported i space) f).errors = f.errors := by
  induction part generalizing f with
  | nil => exact ⟨rfl, rfl, rfl⟩
  | cons i part ih => exact ih (f.markReported i space)

theorem isReported_markAll {m : ℕ} {s : String}
    (h : (part.foldl (fun f i => f.markReported i space) f).isReported m s = true) :
    s = space ∨ f.isReported m s = true := by
  induction part generalizing f with
  | nil => exact Or.inr h
  | cons i part ih =>
    rcases ih h with hs | hold
    · exact Or.inl hs
    · rcases (isReported_markReported f i space m s).mp hold with ⟨_, hs⟩ | hold
      · exact Or.inl hs
      · exact Or.inr hold

theorem Totals.congr {f' : Fold} (h : Totals p rank f done) (htotal : f'.total = f.total)
    (hpeak : f'.peakEdge = f.peakEdge) : Totals p rank f' done := by
  have hof : f'.totalOf = f.totalOf := by
    funext m s
    simp [totalOf, htotal]
  constructor
  · rw [hof]
    exact h.own_le
  · exact h.closed
  · rw [hof]
    exact h.call_le
  · rw [hof]
    exact h.attained
  · rw [hpeak]
    exact h.peak

variable {entry : Sigma fun _ : String => SpaceBudget}

theorem foldCycle_inv (hG : Group p rank scc)
    (hdone : ∀ i ∈ scc, ∀ g ∈ p.succ i, g ∉ scc → done g entry.1) (hnew : ∀ i ∈ scc, ¬done i entry.1)
    (h : Inv p rank budgets base f done) :
    Inv p rank budgets base (foldCycle p scc f entry) fun m s => done m s ∨ m ∈ scc ∧ s = entry.1 := by
  have ht := settleAll_totals hG hdone hG.nodup (fun _ hi => hi) hnew h.totals
  have hr : Reports p budgets base (settleAll p scc entry.1 f) done := settleAll_reports hnew h.reports
  by_cases hbytes : perActivation p scc entry.1 = 0
  · have hfold : foldCycle p scc f entry = settleAll p scc entry.1 f := by simp [foldCycle, hbytes]
    have hown : ∀ i ∈ scc, own p i entry.1 = 0 := by
      intro i hi
      apply UInt64.le_zero_iff.mp
      rw [← hbytes]
      exact own_le_perActivation hi
    rw [hfold]
    refine ⟨ht, hr.insert ?_ ?_⟩
    · rintro i s budget hres ⟨hi, rfl⟩ hb hlt
      rcases ht.attained i entry.1 (Or.inr ⟨hi, rfl⟩) with hself | ⟨g, held, hc, hlow, hsum⟩
      · change budget.cap < (settleAll p scc entry.1 f).totalOf i entry.1 at hlt
        rw [show (settleAll p scc entry.1 f).totalOf i entry.1 = 0 from hself.trans (hown i hi)] at hlt
        exact absurd hlt UInt64.not_lt_zero
      · have hheld := hres i g held hc (hown i hi)
        have hg : done g entry.1 := hdone i hi g hc.mem_succ (by simpa using (hG.skip_iff hi hc.mem_succ).mpr hlow)
        rw [hheld, UInt64.zero_add] at hsum
        refine (hr.exceeding g entry.1 budget hres hg hb ?_).of_reach (.single hc.mem_succ)
        rwa [← show _ = (settleAll p scc entry.1 f).totalOf g entry.1 from hsum]
    · rintro i s ⟨hi, rfl⟩ _ hne
      exact absurd (hown i hi) hne
  · obtain ⟨htotal, hpeak, herrors⟩ := markAll_eq scc (settleAll p scc entry.1 f) entry.1
    have hfold : foldCycle p scc f entry =
        (scc.foldl (fun f i => f.markReported i entry.1) (settleAll p scc entry.1 f)).refuse entry.1 entry.2 .E6028
          (scc.head?.bind fun i => (p.node i).file) (cycleMessage p scc entry.1 (perActivation p scc entry.1))
          none (perActivation p scc entry.1) := by
      simp [foldCycle, hbytes]
    have hgrows := hr.grows
    rw [← herrors] at hgrows
    have hdiag : Diagnosed base (foldCycle p scc f entry) entry.1 := by
      rw [hfold]
      exact diagnosed_refuse hgrows entry.1 entry.2 _ _ _ _ _
    refine ⟨?_, Reports.insert (hr.extend ?_ ?_ ?_) ?_ ?_⟩
    · rw [hfold]
      exact ht.congr htotal hpeak
    · rw [hfold, ← herrors]
      exact refuse_grows _ _ _ _ _ _ _ _
    · intro m s _
      simp only [hfold, totalOf, refuse, htotal]
    · intro m s hm
      rw [hfold] at hm
      rcases isReported_markAll hm with rfl | hold
      · exact Or.inr (Or.inl hdiag)
      · exact Or.inl hold
    · rintro m s budget _ ⟨_, rfl⟩ _ _
      exact Or.inl hdiag
    · rintro m s ⟨_, rfl⟩ _ _
      exact hdiag

theorem foldSingle_inv (hb : budgets.lookup entry.1 = some entry.2)
    (hrank : rank n ≤ p.nodes.length) (hlow : ∀ g ∈ p.succ n, rank g < rank n) (hrec : ¬Recurs p n)
    (hdone : ∀ g ∈ p.succ n, done g entry.1) (hnew : ¬done n entry.1) (h : Inv p rank budgets base f done) :
    ∃ f', foldSingle p n f entry = some f' ∧ Inv p rank budgets base f' fun m s => done m s ∨ m = n ∧ s = entry.1 := by
  have ht : Totals p rank (settle p f n entry.1 fun _ => false) fun m s => done m s ∨ m = n ∧ s = entry.1 :=
    settle_totals h.totals hnew (fun g hg => by simpa using hlow g hg) (fun g hg _ => hdone g hg)
  obtain ⟨f', hf', htotal, hpeak, hr⟩ := reportOverflow_reports ht (settle_reports h.reports hnew) hb hrank hrec
  exact ⟨f', hf', ht.congr htotal hpeak, hr⟩

theorem foldEntries_inv (scc : List ℕ) (step : Fold → (Sigma fun _ : String => SpaceBudget) → Option Fold)
    (hstep : ∀ f done entry, (∀ i ∈ scc, ¬done i entry.1) →
      (∀ i ∈ scc, ∀ g ∈ p.succ i, g ∉ scc → done g entry.1) → budgets.lookup entry.1 = some entry.2 →
      Inv p rank budgets base f done → ∃ f', step f entry = some f' ∧
        Inv p rank budgets base f' fun m s => done m s ∨ m ∈ scc ∧ s = entry.1)
    {entries : List (Sigma fun _ : String => SpaceBudget)} (hnodup : entries.NodupKeys)
    (hb : ∀ entry ∈ entries, budgets.lookup entry.1 = some entry.2)
    (hnew : ∀ entry ∈ entries, ∀ i ∈ scc, ¬done i entry.1)
    (hdone : ∀ entry ∈ entries, ∀ i ∈ scc, ∀ g ∈ p.succ i, g ∉ scc → done g entry.1)
    (h : Inv p rank budgets base f done) : ∃ f', entries.foldlM step f = some f' ∧
      Inv p rank budgets base f' fun m s => done m s ∨ m ∈ scc ∧ s ∈ entries.keys := by
  induction entries generalizing f done with
  | nil => exact ⟨f, rfl, by simpa using h⟩
  | cons entry entries ih =>
    obtain ⟨hfresh, hrest⟩ := List.nodupKeys_cons.mp hnodup
    obtain ⟨f₁, hf₁, hinv₁⟩ := hstep f done entry (hnew entry mem_cons_self)
      (hdone entry mem_cons_self) (hb entry mem_cons_self) h
    have hnew₁ : ∀ e ∈ entries, ∀ i ∈ scc, ¬(done i e.1 ∨ i ∈ scc ∧ e.1 = entry.1) := by
      rintro e he i hi (hd | ⟨_, hs⟩)
      · exact hnew e (mem_cons_of_mem _ he) i hi hd
      · exact hfresh (hs ▸ mem_keys_of_mem he)
    obtain ⟨f', hf', hinv⟩ := ih hrest (fun e he => hb e (mem_cons_of_mem _ he)) hnew₁
      (fun e he i hi g hg hout => Or.inl (hdone e (mem_cons_of_mem _ he) i hi g hg hout)) hinv₁
    refine ⟨f', by simp [hf₁, hf'], ?_⟩
    simpa only [keys_cons, mem_cons, and_or_left, or_assoc] using hinv

theorem rank_le_of_reach (hle : ∀ i, ∀ g ∈ p.succ i, rank g ≤ rank i) {a b : ℕ} (h : Reach p.succ a b) :
    rank b ≤ rank a := by
  induction h with
  | refl => exact le_refl _
  | tail _ hstep ih => exact (hle _ _ hstep).trans ih

theorem not_recurs_of_not_cyclic (hG : Group p rank [n]) (hle : ∀ i, ∀ g ∈ p.succ i, rank g ≤ rank i)
    (hc : cyclic p [n] = false) : (∀ g ∈ p.succ n, rank g < rank n) ∧ ¬Recurs p n := by
  have hself : n ∉ p.succ n := by simpa [cyclic] using hc
  have hlow : ∀ g ∈ p.succ n, rank g < rank n := by
    intro g hg
    apply hG.leaves n mem_cons_self g hg
    rintro hmem
    exact hself (List.mem_singleton.mp hmem ▸ hg)
  refine ⟨hlow, ?_⟩
  rintro ⟨g, hg, hr⟩
  have h₁ := rank_le_of_reach hle hr
  have h₂ := hlow g hg
  omega

theorem foldGroup_inv (hG : Group p rank scc) (hle : ∀ i, ∀ g ∈ p.succ i, rank g ≤ rank i)
    (hrank : ∀ i ∈ scc, rank i ≤ p.nodes.length) (hnew : ∀ s ∈ budgets.keys, ∀ i ∈ scc, ¬done i s)
    (hdone : ∀ s ∈ budgets.keys, ∀ i ∈ scc, ∀ g ∈ p.succ i, g ∉ scc → done g s) (h : Inv p rank budgets base f done) :
    ∃ f', foldGroup p budgets f scc = some f' ∧
      Inv p rank budgets base f' fun m s => done m s ∨ m ∈ scc ∧ s ∈ budgets.keys := by
  have hb : ∀ entry ∈ budgets.entries, budgets.lookup entry.1 = some entry.2 :=
    fun entry he => AList.mem_lookup_iff.mpr he
  have hkey : ∀ entry ∈ budgets.entries, entry.1 ∈ budgets.keys := fun entry he => mem_keys_of_mem he
  cases hc : cyclic p scc with
  | true =>
    have hfold := foldEntries_inv scc (fun f entry => some (foldCycle p scc f entry))
      (fun f done entry hn hd _ hi => ⟨_, rfl, foldCycle_inv hG hd hn hi⟩) budgets.nodupKeys hb
      (fun e he => hnew e.1 (hkey e he)) (fun e he => hdone e.1 (hkey e he)) h
    obtain ⟨f', hf', hinv⟩ := hfold
    refine ⟨f', ?_, hinv⟩
    rw [← hf']
    simp only [foldGroup, hc, ↓reduceIte]
    exact (foldlM_pure (m := Option)).symm
  | false =>
    obtain ⟨n, rfl⟩ : ∃ n, scc = [n] := by
      have hlen : scc.length ≤ 1 := by
        by_contra hgt
        simp [cyclic, show 1 < scc.length by omega] at hc
      have hpos := List.length_pos_iff.mpr hG.nonempty
      exact List.length_eq_one_iff.mp (by omega)
    obtain ⟨hlow, hrec⟩ := not_recurs_of_not_cyclic hG hle hc
    have hout : ∀ g ∈ p.succ n, g ∉ [n] := by
      intro g hg hmem
      have := hlow g hg
      rw [List.mem_singleton.mp hmem] at this
      omega
    have hfold := foldEntries_inv [n] (foldSingle p n) (fun f done entry hn hd hb hi => by
      simpa using foldSingle_inv hb (hrank n mem_cons_self) hlow hrec
        (fun g hg => hd n mem_cons_self g hg (hout g hg)) (hn n mem_cons_self) hi) budgets.nodupKeys hb
      (fun e he => hnew e.1 (hkey e he)) (fun e he => hdone e.1 (hkey e he)) h
    simpa [foldGroup, hc, AList.keys] using hfold

end Vx.Capacity.Fold
