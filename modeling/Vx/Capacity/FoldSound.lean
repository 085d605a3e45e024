import Vx.Capacity.CallPath

namespace Vx.Capacity

open List AList
open Tarjan (Reach)
open Fold (own Calls Diagnosed Resident Recurs Inv rankIn)

variable {summaries : List FnCapacitySummary} {budgets : Budgets} {space : String}

section
variable {p : Program} {sccs : List (List ℕ)} {f : Fold} {base : List Diagnostic} {a b root : String} {i j : ℕ}
  (hI : p.Indexed summaries) (hC : Components p.succ p.nodes.length sccs)
  (hinv : Inv p (rankIn sccs) budgets base f fun n s => n < p.nodes.length ∧ s ∈ budgets.keys)
  (hkey : space ∈ budgets.keys) {path : List String} {bytes : ℕ}
include hI in
theorem path_head (h : CallPath summaries space (a :: path) bytes) : ∃ i, p.index.lookup a = some i := by
  cases h with
  | last hs | call hs _ _ => exact (exists_node hI hs).imp fun _ h => h.1

include hI in
theorem path_reaches (h : CallPath summaries space path bytes) :
    ∀ a rest, path = a :: rest → ∀ g ∈ path, Reaches summaries a g := by
  induction h with
  | last hs =>
    intro a rest he g hg
    cases he
    rw [List.mem_singleton.mp hg]
    exact .refl
  | call hs hedge hrest ih =>
    intro a rest he g hg
    cases he
    rcases List.mem_cons.mp hg with rfl | hg
    · exact .refl
    · obtain ⟨j, hj⟩ := path_head hI hrest
      refine .head ⟨_, hs, ⟨_, hedge, rfl⟩, ?_⟩ (ih _ _ rfl g hg)
      simp [summaryOf_node hI hj]

variable {edge : CallEdge}
include hI in
theorem path_cons (hi : p.index.lookup a = some i)
    (hedge : edge ∈ (p.node i).calls) (hj : p.index.lookup edge.callee = some j) (hout : ¬Reach p.succ j i)
    (hpath : CallPath summaries space (edge.callee :: path) bytes) (hnodup : (edge.callee :: path).Nodup) :
    CallPath summaries space (a :: edge.callee :: path) ((bytesIn edge.live space).toNat + bytes) ∧
      (a :: edge.callee :: path).Nodup := by
  refine ⟨.call (summaryOf_node hI hi) hedge hpath, List.nodup_cons.mpr ⟨?_, hnodup⟩⟩
  intro hmem
  obtain ⟨i', hi', hreach⟩ := reach_of_reaches hI hj (path_reaches hI hpath _ _ rfl a hmem)
  rw [hi] at hi'
  cases hi'
  exact hout hreach

include hI in
theorem callsTo_edge (hi : p.index.lookup a = some i) (hedge : edge ∈ (p.node i).calls)
    (hj : p.index.lookup edge.callee = some j) : CallsTo summaries a edge.callee :=
  ⟨_, summaryOf_node hI hi, ⟨edge, hedge, rfl⟩, by simp [summaryOf_node hI hj]⟩

theorem recurs_of_ne (hne : i ≠ j) (hij : Reach p.succ i j) (hji : Reach p.succ j i) : Recurs p i := by
  rcases Relation.ReflTransGen.cases_head hij with he | ⟨g, hg, hgj⟩
  · exact absurd he hne
  · exact ⟨g, hg, hgj.trans hji⟩

def NoWrap (summaries : List FnCapacitySummary) (space root : String) : Prop :=
  ∀ g path b, Reaches summaries root g → CallPath summaries space (g :: path) b → (g :: path).Nodup → b < 2 ^ 64

include hinv hkey in
theorem own_eq_zero_of_recurs (hd : ¬Diagnosed base f space) (hi : i < p.nodes.length) (hrec : Recurs p i) :
    own p i space = 0 := by
  by_contra hne
  exact hd (hinv.reports.cycle i space ⟨hi, hkey⟩ hrec hne)

include hI hC hinv hkey
variable (hwrap : NoWrap summaries space root)
include hwrap

theorem total_realised (hi : p.index.lookup a = some i) (hroot : Reaches summaries root a) :
    ∃ path, CallPath summaries space (a :: path) (f.totalOf i space).toNat ∧ (a :: path).Nodup := by
  induction hr : rankIn sccs i using Nat.strong_induction_on generalizing a i with
  | _ r ih =>
    subst hr
    rcases hinv.totals.attained i space ⟨hI.lookup_lt hi, hkey⟩ with hown | ⟨g, held, hc, hlt, hsum⟩
    · refine ⟨[], ?_, nodup_singleton a⟩
      rw [hown]
      exact .last (summaryOf_node hI hi)
    · obtain ⟨edge, hedge, hg, rfl⟩ := hc
      obtain ⟨path, hpath, hnodup⟩ := ih _ hlt hg (hroot.tail (callsTo_edge hI hi hedge hg)) rfl
      have hout : ¬Reach p.succ g i := by
        intro hreach
        have hle := Fold.rank_le_of_reach (Fold.components_le hC) hreach
        omega
      obtain ⟨hpath', hnodup'⟩ := path_cons hI hi hedge hg hout hpath hnodup
      refine ⟨_, ?_, hnodup'⟩
      rw [hsum, UInt64.toNat_add, Nat.mod_eq_of_lt (hwrap a _ _ hroot hpath' hnodup')]
      exact hpath'

theorem call_le_total (hi : p.index.lookup a = some i)
    (hroot : Reaches summaries root a) (hedge : edge ∈ (p.node i).calls)
    (hj : p.index.lookup edge.callee = some j) (hout : ¬Reach p.succ j i) :
    (bytesIn edge.live space).toNat + (f.totalOf j space).toNat ≤ (f.totalOf i space).toNat := by
  have hc : Calls p space i j (bytesIn edge.live space) := ⟨edge, hedge, hj, rfl⟩
  obtain ⟨path, hpath, hnodup⟩ := total_realised hI hC hinv hkey hwrap hj (hroot.tail (callsTo_edge hI hi hedge hj))
  obtain ⟨hpath', hnodup'⟩ := path_cons hI hi hedge hj hout hpath hnodup
  have hle := hinv.totals.call_le i space j _ ⟨hI.lookup_lt hi, hkey⟩ hc (Fold.components_lt hC hc.mem_succ hout)
  rwa [UInt64.le_iff_toNat_le, UInt64.toNat_add, Nat.mod_eq_of_lt (hwrap a _ _ hroot hpath' hnodup')] at hle

theorem path_le_total (hres : Resident p space)
    (hd : ¬Diagnosed base f space) (h : CallPath summaries space path bytes) :
    ∀ a rest entry e, path = a :: rest → p.index.lookup entry = some e → SameGroup summaries entry a →
      Reaches summaries root entry → LeavesAsEntered summaries space entry path →
      bytes ≤ (f.totalOf e space).toNat := by
  induction h with
  | last hs =>
    intro a rest entry e hpath he hgroup hroot _
    cases hpath
    obtain ⟨i, hi, rfl⟩ := exists_node hI hs
    by_cases hei : e = i
    · subst hei
      exact UInt64.le_iff_toNat_le.mp (hinv.totals.own_le e space ⟨hI.lookup_lt he, hkey⟩)
    obtain ⟨h₁, h₂⟩ := (sameGroup_iff hI he hi).mp hgroup
    have hzero := own_eq_zero_of_recurs hinv hkey hd (hI.lookup_lt hi) (recurs_of_ne (Ne.symm hei) h₂ h₁)
    simp only [own] at hzero
    simp [hzero]
  | @call name s edge rest bytes hs hedge hrest ih =>
    intro a rest' entry e hpath he hgroup hroot hleaves
    cases hpath
    obtain ⟨i, hi, rfl⟩ := exists_node hI hs
    obtain ⟨j, hj⟩ := path_head hI hrest
    have hc : Calls p space i j (bytesIn edge.live space) := ⟨edge, hedge, hj, rfl⟩
    by_cases hsame : SameGroup summaries name edge.callee
    · have hback := ((sameGroup_iff hI hi hj).mp hsame).2
      have hzero := own_eq_zero_of_recurs hinv hkey hd (hI.lookup_lt hi) ⟨j, hc.mem_succ, hback⟩
      have hheld := hres i j _ hc hzero
      have hle := ih _ _ entry e rfl he ⟨hgroup.1.trans hsame.1, hsame.2.trans hgroup.2⟩ hroot (hleaves.1 hsame)
      simpa [hheld] using hle
    · obtain ⟨hexit, hleaves'⟩ := hleaves.2 hsame
      have hout : ¬Reach p.succ j i := by
        intro hback
        exact hsame ((sameGroup_iff hI hi hj).mpr ⟨.single hc.mem_succ, hback⟩)
      have hcall := callsTo_edge hI hi hedge hj
      have hei : e = i := by
        by_contra hne
        rcases hexit with rfl | ⟨m, hm, hpeak⟩
        · rw [hi] at he
          exact hne (Option.some.inj he).symm
        · -- The group has bytes of its own and recurses, so it was refused.
          obtain ⟨k, hk, hik⟩ := reach_of_reaches hI hi hm.1
          obtain ⟨hik, hki⟩ := (sameGroup_iff hI hi hk).mp hm
          obtain ⟨hei, hie⟩ := (sameGroup_iff hI he hi).mp hgroup
          have hrec : Recurs p k := by
            by_cases hke : k = e
            · exact recurs_of_ne (hke ▸ hne) hki hik
            · exact recurs_of_ne hke (hki.trans hie) (hei.trans hik)
          apply hpeak
          rw [peakOf_node hI hk, own_eq_zero_of_recurs hinv hkey hd (hI.lookup_lt hk) hrec]
          rfl
      subst hei
      obtain rfl : entry = name := by rw [← hI.node_name he, hI.node_name hi]
      have hle := ih _ _ edge.callee j rfl hj ⟨.refl, .refl⟩ (hroot.tail hcall) hleaves'
      have hstep := call_le_total hI hC hinv hkey hwrap hi hroot hedge hj hout
      omega

end

theorem foldWithBudgets_reports (errors : DiagnosticsVec) {budget : SpaceBudget}
    (hb : budgets.lookup space = some budget) (hheld : HeldInPeak summaries space) :
    ∃ new, foldWithBudgets summaries budgets errors = some ⟨errors.inner ++ new, errors.file⟩ ∧
      ((∃ name rest bytes, Exceeds summaries space budget.cap name rest bytes) ∨ HoldingCycle summaries space →
        ∃ d ∈ new, d.facts.space = space) := by
  have hI := Program.ofSummaries_indexed summaries
  have hkey : space ∈ budgets.keys := AList.lookup_isSome.mp (by simp [hb])
  have hne : budgets.entries ≠ [] := by
    intro hnil
    simp [AList.keys, hnil] at hkey
  obtain ⟨sccs, f, hfold, hC, hinv⟩ := Fold.foldWithBudgets_inv summaries errors hne
  obtain ⟨new, hnew⟩ := hinv.reports.grows
  refine ⟨new, by rw [hfold, hnew], fun hover => ?_⟩
  have hres : Resident (Program.ofSummaries summaries) space := by
    rintro n g held ⟨edge, hedge, hg, rfl⟩ hown
    by_cases hn : n < (Program.ofSummaries summaries).nodes.length
    · exact hheld _ _ (summaryOf_node hI (lookup_name hI hn)) edge hedge hown
    · simp [Program.node, List.getD, List.getElem?_eq_none (not_lt.mp hn)] at hedge
  have hdiag : Diagnosed errors.inner f space := by
    by_contra hd
    rcases hover with ⟨name, rest, bytes, hex⟩ | ⟨name, s, hs, edge, hedge, hback, hbytes⟩
    · obtain ⟨i, hi⟩ := path_head hI hex.path
      have hle := path_le_total hI hC hinv hkey hex.no_wrap hres hd hex.path _ _ name i rfl hi ⟨.refl, .refl⟩
        .refl hex.leaves
      have hcap : budget.cap < f.totalOf i space :=
        UInt64.lt_iff_toNat_lt.mpr (lt_of_lt_of_le hex.exceeds hle)
      rcases hinv.reports.exceeding i space budget hres ⟨hI.lookup_lt hi, hkey⟩ hb hcap with hdiag | ⟨m, b', hm, hb', hlt⟩
      · exact hd hdiag
      obtain rfl : budget = b' := by simpa [hb] using hb'
      have hname := lookup_name hI (reach_lt hI (hI.lookup_lt hi) hm)
      have hle := hex.no_local _ (reaches_of_reach hI hi hname hm)
      rw [peakOf_node hI hname] at hle
      exact absurd (UInt64.lt_iff_toNat_lt.mp hlt) (not_lt.mpr hle)
    · obtain ⟨i, hi, rfl⟩ := exists_node hI hs
      obtain ⟨j, hj, hreach⟩ := reach_of_called hI hi hback
      have hc : Calls (Program.ofSummaries summaries) space i j (bytesIn edge.live space) := ⟨edge, hedge, hj, rfl⟩
      have hown := own_eq_zero_of_recurs hinv hkey hd (hI.lookup_lt hi) ⟨j, hc.mem_succ, hreach⟩
      exact hbytes (hres i j _ hc hown)
  obtain ⟨new', hnew', d, hdm, hds⟩ := hdiag
  obtain rfl : new = new' := append_cancel_left (hnew.trans hnew')
  exact ⟨d, hdm, hds⟩

def noSpan : Span := ⟨0, 0, 0, 0⟩

def bytesOf (space : String) (bytes : UInt64) : Bytes := AList.insert space bytes ∅

def capacity (space : String) (cap : UInt64) : Budgets := AList.insert space ⟨cap, false⟩ ∅

def localOverflow : List FnCapacitySummary :=
  [⟨"main", none, ∅, [⟨"f", ∅, noSpan⟩]⟩, ⟨"f", none, bytesOf "W" 9, []⟩]

theorem localOverflow_not_reported :
    CallPath localOverflow "W" ["main", "f"] 9 ∧ (capacity "W" 4).lookup "W" = some ⟨4, false⟩ ∧
      foldWithBudgets localOverflow (capacity "W" 4) ⟨[], none⟩ = some ⟨[], none⟩ := by
  have hlast : CallPath localOverflow "W" ["f"] 9 := .last (s := ⟨"f", none, bytesOf "W" 9, []⟩) rfl
  have hmain : summaryOf localOverflow "main" = some ⟨"main", none, ∅, [⟨"f", ∅, noSpan⟩]⟩ := rfl
  exact ⟨.call hmain (mem_singleton_self _) hlast, lookup_insert _, by decide⟩

def holdingCall : List FnCapacitySummary :=
  [⟨"f", none, bytesOf "W" 3, [⟨"g", bytesOf "W" 3, noSpan⟩]⟩, ⟨"g", none, bytesOf "W" 3, []⟩]

theorem summaryOf_holdingCall {name : String} {s : FnCapacitySummary} (h : summaryOf holdingCall name = some s) :
    name = "f" ∧ s = ⟨"f", none, bytesOf "W" 3, [⟨"g", bytesOf "W" 3, noSpan⟩]⟩ ∨
      name = "g" ∧ s = ⟨"g", none, bytesOf "W" 3, []⟩ := by
  simp only [summaryOf, holdingCall, List.find?_cons, List.find?_nil] at h
  split at h
  · rename_i hf
    exact Or.inl ⟨(of_decide_eq_true hf).symm, (Option.some.inj h).symm⟩
  split at h
  · rename_i hg
    exact Or.inr ⟨(of_decide_eq_true hg).symm, (Option.some.inj h).symm⟩
  · cases h

theorem holdingCall_path_le {path : List String} {b : ℕ} (h : CallPath holdingCall "W" path b) :
    b ≤ 6 ∧ (path.head? = some "g" → b ≤ 3) := by
  induction h with
  | last hs =>
    rcases summaryOf_holdingCall hs with ⟨rfl, rfl⟩ | ⟨rfl, rfl⟩ <;> decide
  | call hs hedge hrest ih =>
    rcases summaryOf_holdingCall hs with ⟨rfl, rfl⟩ | ⟨rfl, rfl⟩
    · obtain rfl := List.mem_singleton.mp hedge
      have hle := ih.2 rfl
      have hheld : (bytesIn (bytesOf "W" 3) "W").toNat = 3 := rfl
      refine ⟨by simp only [hheld]; omega, by simp⟩
    · simp at hedge

theorem holdingCall_exceeds : Exceeds holdingCall "W" 4 "f" ["g"] 6 where
  path := by
    have hlast : CallPath holdingCall "W" ["g"] 3 := .last (s := ⟨"g", none, bytesOf "W" 3, []⟩) rfl
    exact CallPath.call (s := ⟨"f", none, bytesOf "W" 3, [⟨"g", bytesOf "W" 3, noSpan⟩]⟩) rfl
      (mem_singleton_self _) hlast
  exceeds := by decide
  leaves := ⟨fun _ => trivial, fun _ => ⟨Or.inl rfl, trivial⟩⟩
  no_local := by
    intro g _
    cases hs : summaryOf holdingCall g with
    | none => simp [peakOf, hs]
    | some s => rcases summaryOf_holdingCall hs with ⟨rfl, rfl⟩ | ⟨rfl, rfl⟩ <;> decide
  no_wrap := fun _ _ _ _ hpath _ => lt_of_le_of_lt (holdingCall_path_le hpath).1 (by decide)

theorem foldWithBudgets_reports_holdingCall :
    ∃ new, foldWithBudgets holdingCall (capacity "W" 4) ⟨[], none⟩ = some ⟨[] ++ new, none⟩ ∧
      ∃ d ∈ new, d.facts.space = "W" := by
  have hheld : HeldInPeak holdingCall "W" := by
    intro name s hs edge hedge hown
    rcases summaryOf_holdingCall hs with ⟨rfl, rfl⟩ | ⟨rfl, rfl⟩
    · exact absurd hown (by decide)
    · simp at hedge
  have hb : (capacity "W" 4).lookup "W" = some ⟨4, false⟩ := lookup_insert _
  obtain ⟨new, hfold, hreport⟩ := foldWithBudgets_reports ⟨[], none⟩ hb hheld
  exact ⟨new, hfold, hreport (Or.inl ⟨"f", ["g"], 6, holdingCall_exceeds⟩)⟩

end Vx.Capacity
