import Vx.Capacity.FoldInvariant

namespace Vx.Capacity.Fold

open List Option
open Tarjan (Reach)

variable {p : Program} {rank : ℕ → ℕ} {budgets : Budgets} {base : List Diagnostic} {f f' : Fold}
  {done : ℕ → String → Prop} {n : ℕ} {space : String} {skip : ℕ → Bool} {budget : SpaceBudget}

def Diagnosed (base : List Diagnostic) (f : Fold) (space : String) : Prop :=
  ∃ new, f.errors.inner = base ++ new ∧ ∃ d ∈ new, d.facts.space = space

def Over (p : Program) (budgets : Budgets) (base : List Diagnostic) (f : Fold) (space : String) (n : ℕ) : Prop :=
  Diagnosed base f space ∨
    ∃ m budget, Reach p.succ n m ∧ budgets.lookup space = some budget ∧ budget.cap < own p m space

def Resident (p : Program) (space : String) : Prop :=
  ∀ n g held, Calls p space n g held → own p n space = 0 → held = 0

def Recurs (p : Program) (n : ℕ) : Prop := ∃ g ∈ p.succ n, Reach p.succ g n

structure Reports (p : Program) (budgets : Budgets) (base : List Diagnostic) (f : Fold)
    (done : ℕ → String → Prop) : Prop where
  grows : base <+: f.errors.inner
  exceeding : ∀ n space budget, Resident p space → done n space → budgets.lookup space = some budget →
    budget.cap < f.totalOf n space → Over p budgets base f space n
  reported : ∀ n space, f.isReported n space = true → Over p budgets base f space n
  cycle : ∀ n space, done n space → Recurs p n → own p n space ≠ 0 → Diagnosed base f space

theorem Diagnosed.mono (h : Diagnosed base f space) (hg : f.errors.inner <+: f'.errors.inner) :
    Diagnosed base f' space := by
  obtain ⟨new, hnew, d, hd, hs⟩ := h
  obtain ⟨more, hmore⟩ := hg
  exact ⟨new ++ more, by rw [← hmore, hnew, append_assoc], d, mem_append_left _ hd, hs⟩

theorem Over.mono (h : Over p budgets base f space n) (hg : f.errors.inner <+: f'.errors.inner) :
    Over p budgets base f' space n := by
  rcases h with hd | hlocal
  · exact Or.inl (hd.mono hg)
  · exact Or.inr hlocal

theorem Over.of_reach {m : ℕ} (h : Over p budgets base f space m) (hr : Reach p.succ n m) :
    Over p budgets base f space n := by
  rcases h with hd | ⟨k, budget, hk, hb, hlt⟩
  · exact Or.inl hd
  · exact Or.inr ⟨k, budget, hr.trans hk, hb, hlt⟩

variable (h : Reports p budgets base f done)
include h

theorem Reports.extend (hg : f.errors.inner <+: f'.errors.inner)
    (htotal : ∀ n space, done n space → f'.totalOf n space = f.totalOf n space)
    (hreported : ∀ n space, f'.isReported n space = true →
      f.isReported n space = true ∨ Over p budgets base f' space n) : Reports p budgets base f' done where
  grows := h.grows.trans hg
  exceeding := by
    intro n space budget hr hn hb hlt
    rw [htotal n space hn] at hlt
    exact (h.exceeding n space budget hr hn hb hlt).mono hg
  reported := by
    intro n space hn
    rcases hreported n space hn with hold | hnew
    · exact (h.reported n space hold).mono hg
    · exact hnew
  cycle := fun n space hn hrec hown => (h.cycle n space hn hrec hown).mono hg

theorem Reports.insert {also : ℕ → String → Prop}
    (hover : ∀ n space budget, Resident p space → also n space → budgets.lookup space = some budget →
      budget.cap < f.totalOf n space → Over p budgets base f space n)
    (hcycle : ∀ n space, also n space → Recurs p n → own p n space ≠ 0 → Diagnosed base f space) :
    Reports p budgets base f fun n space => done n space ∨ also n space where
  grows := h.grows
  exceeding := by
    rintro n space budget hr (hn | hn) hb hlt
    · exact h.exceeding n space budget hr hn hb hlt
    · exact hover n space budget hr hn hb hlt
  reported := h.reported
  cycle := by
    rintro n space (hn | hn) hrec hown
    · exact h.cycle n space hn hrec hown
    · exact hcycle n space hn hrec hown

theorem settle_reports (hnew : ¬done n space) : Reports p budgets base (settle p f n space skip) done := by
  refine h.extend ?_ ?_ ?_
  · exact prefix_refl _
  · intro m s hm
    rw [totalOf_settle, if_neg]
    rintro ⟨rfl, rfl⟩
    exact hnew hm
  · exact fun m s hm => Or.inl hm

omit h in
theorem isReported_markReported (f : Fold) (n : ℕ) (space : String) (m : ℕ) (s : String) :
    (f.markReported n space).isReported m s = true ↔ (m = n ∧ s = space) ∨ f.isReported m s = true := by
  simp only [isReported, markReported, setAt]
  by_cases h : m = n ∧ s = space <;> simp [h]

theorem Reports.mark (hover : Over p budgets base (f.markReported n space) space n) :
    Reports p budgets base (f.markReported n space) done := by
  refine h.extend ?_ ?_ ?_
  · exact prefix_refl _
  · exact fun m s _ => rfl
  · intro m s hm
    rcases (isReported_markReported f n space m s).mp hm with ⟨rfl, rfl⟩ | hold
    · exact Or.inr hover
    · exact Or.inl hold

omit h

theorem refuse_grows (f : Fold) (space : String) (budget : SpaceBudget) (code : DiagnosticCode)
    (file : Option String) (message : String) (span : Option SourceSpan) (bytes : UInt64) :
    f.errors.inner <+: (f.refuse space budget code file message span bytes).errors.inner :=
  prefix_append _ _

theorem diagnosed_refuse (hg : base <+: f.errors.inner) (space : String) (budget : SpaceBudget) (code : DiagnosticCode)
    (file : Option String) (message : String) (span : Option SourceSpan) (bytes : UInt64) :
    Diagnosed base (f.refuse space budget code file message span bytes) space := by
  obtain ⟨new, hnew⟩ := hg
  refine ⟨_, by simp only [refuse, DiagnosticsVec.refuse, ← hnew, append_assoc]; rfl, _,
    mem_append_right _ (mem_singleton_self _), ?_⟩
  split <;> rfl

theorem Reports.refuse (h : Reports p budgets base f done) (space : String) (budget : SpaceBudget) (code : DiagnosticCode)
    (file : Option String) (message : String) (span : Option SourceSpan) (bytes : UInt64) :
    Reports p budgets base (f.refuse space budget code file message span bytes) done :=
  h.extend (refuse_grows f space budget code file message span bytes) (fun _ _ _ => rfl) fun _ _ hm => Or.inl hm

theorem peakPath_ends (ht : Totals p rank f done) (space : String) {fuel cur : ℕ} (hfuel : rank cur < fuel) :
    ∃ r, peakPath p f space fuel cur = some r ∧
      (r = .alreadyReported → ∃ m, Reach p.succ cur m ∧ f.isReported m space = true) := by
  induction fuel generalizing cur with
  | zero => omega
  | succ fuel ih =>
    cases hedge : f.peakEdge cur space with
    | none => exact ⟨.path [] [], by simp [peakPath, hedge], by simp⟩
    | some ei =>
      obtain ⟨call, g, hcall, hg, hlt⟩ := ht.peak cur space ei hedge
      have hstep : g ∈ p.succ cur := List.mem_filterMap.mpr ⟨call, mem_of_getElem? hcall, hg⟩
      by_cases hrep : f.isReported g space = true
      · exact ⟨.alreadyReported, by simp [peakPath, hedge, hcall, hg, hrep], fun _ => ⟨g, .single hstep, hrep⟩⟩
      have hg_lt : rank g < fuel := by omega
      obtain ⟨r, hr, hreach⟩ := ih hg_lt
      cases r with
      | alreadyReported =>
        refine ⟨.alreadyReported, by simp [peakPath, hedge, hcall, hg, hrep, hr], fun _ => ?_⟩
        obtain ⟨m, hm, hrm⟩ := hreach rfl
        exact ⟨m, .head hstep hm, hrm⟩
      | path hops path =>
        exact ⟨_, by simp only [peakPath, hedge, hcall, hg, hrep, hr, bind_eq_bind, bind_some]; rfl, by simp⟩

theorem reportOverflow_cases (ht : Totals p rank f done) (hrank : rank n ≤ p.nodes.length) (peak : UInt64)
    (budget : SpaceBudget) : ∃ f', reportOverflow p f n space peak budget = some f' ∧ (peak ≤ budget.cap ∧ f' = f ∨
        f' = f.markReported n space ∧
          (budget.cap < own p n space ∨ ∃ m, Reach p.succ n m ∧ f.isReported m space = true) ∨
        ∃ file message span, f' = (f.markReported n space).refuse space budget .E6027 file message span peak) := by
  unfold reportOverflow
  split
  · rename_i hle
    exact ⟨f, rfl, Or.inl ⟨hle, rfl⟩⟩
  split
  · rename_i hlocal
    exact ⟨_, rfl, Or.inr (Or.inl ⟨rfl, Or.inl hlocal⟩)⟩
  obtain ⟨r, hr, hreach⟩ := peakPath_ends ht space (Nat.lt_succ_of_le hrank)
  cases r with
  | alreadyReported => exact ⟨f.markReported n space, by simp [hr], Or.inr (Or.inl ⟨rfl, Or.inr (hreach rfl)⟩)⟩
  | path hops path =>
    refine ⟨_, by simp only [hr, bind_eq_bind, bind_some]; rfl, ?_⟩
    exact Or.inr (Or.inr ⟨_, _, _, rfl⟩)

theorem reportOverflow_reports {settled : ℕ → String → Prop} (ht : Totals p rank f settled) (h : Reports p budgets base f done)
    (hb : budgets.lookup space = some budget) (hrank : rank n ≤ p.nodes.length) (hrec : ¬Recurs p n) :
    ∃ f', reportOverflow p f n space (f.totalOf n space) budget = some f' ∧ f'.total = f.total ∧
      f'.peakEdge = f.peakEdge ∧
      Reports p budgets base f' fun m s => done m s ∨ m = n ∧ s = space := by
  have hadd : ∀ f', f'.total = f.total → Reports p budgets base f' done →
      (budget.cap < f.totalOf n space → Over p budgets base f' space n) →
      Reports p budgets base f' fun m s => done m s ∨ m = n ∧ s = space := by
    intro f' htotal hf' hover
    apply hf'.insert
    · rintro m s budget' _ ⟨rfl, rfl⟩ hb' hlt
      obtain rfl : budget = budget' := by simpa [hb] using hb'
      exact hover (by simpa [totalOf, htotal] using hlt)
    · rintro m s ⟨rfl, rfl⟩ hrec'
      exact absurd hrec' hrec
  obtain ⟨f', hf', hcases⟩ := reportOverflow_cases ht hrank (f.totalOf n space) budget
  refine ⟨f', hf', ?_⟩
  rcases hcases with ⟨hle, rfl⟩ | ⟨rfl, hwhy⟩ | ⟨file, message, span, rfl⟩
  · exact ⟨rfl, rfl, hadd _ rfl h fun hlt => absurd hle (UInt64.not_le.mpr hlt)⟩
  · have hover : Over p budgets base (f.markReported n space) space n := by
      rcases hwhy with hlocal | ⟨m, hm, hrm⟩
      · exact Or.inr ⟨n, budget, .refl, hb, hlocal⟩
      · exact ((h.reported m space hrm).of_reach hm).mono (prefix_refl _)
    exact ⟨rfl, rfl, hadd _ rfl (h.mark hover) fun _ => hover⟩
  · have hdiag : Diagnosed base ((f.markReported n space).refuse space budget .E6027 file message span
        (f.totalOf n space)) space := diagnosed_refuse h.grows space budget .E6027 file message span _
    have hmarked := h.refuse space budget .E6027 file message span (f.totalOf n space)
    exact ⟨rfl, rfl, hadd _ rfl (hmarked.mark (n := n) (Or.inl hdiag)) fun _ => Or.inl hdiag⟩

end Vx.Capacity.Fold
