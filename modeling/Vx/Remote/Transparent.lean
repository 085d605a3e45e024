import Vx.Remote.Accepts
import Vx.Remote.Rebuild

namespace Vx.Remote

open List Option Function
open Lib.Relocation
open Lib.Strided

variable {β : Type} {mem : ℕ → β} {w : Worker β} {args : List (Arg β)} {vs : List View} {plan : Plan}

section

def Lives (vs : List View) (plan : Plan) (base a : ℕ) (place : ℕ × ℕ) : Prop :=
  ∃ i span, plan.spans[i]? = some span ∧ place.1 = base + i ∧ (spanBytes vs plan span)[place.2]? = some a

variable {a : ℕ} {p : ℕ × ℕ}

theorem Lives.unique {base : ℕ} {q : ℕ × ℕ} (hp : Lives vs plan base a p) (hplan : plan.Ok vs)
    (hq : Lives vs plan base a q) : p = q := by
  obtain ⟨i, span, hi, hpi, hpa⟩ := hp
  obtain ⟨j, span', hj, hqj, hqa⟩ := hq
  obtain rfl := hplan.disjoint i j span span' a hi hj (mem_of_getElem? hpa) (mem_of_getElem? hqa)
  obtain rfl : span = span' := Option.some.inj (hi.symm.trans hj)
  have hlt := (List.getElem?_eq_some_iff.mp hpa).1
  have hplace := (List.getElem?_inj hlt (hplan.nodup span (mem_of_getElem? hi))).mp (hpa.trans hqa.symm)
  exact Prod.ext (hpi.trans hqj.symm) hplace

theorem Lives.injective {base b : ℕ} (hp : Lives vs plan base a p) (hq : Lives vs plan base b p) : a = b := by
  obtain ⟨i, span, hi, hpi, hpa⟩ := hp
  obtain ⟨j, span', hj, hqj, hqa⟩ := hq
  obtain rfl : i = j := by omega
  obtain rfl : span = span' := Option.some.inj (hi.symm.trans hj)
  exact Option.some.inj (hpa.symm.trans hqa)

theorem home_eq_some (hplan : plan.Ok vs) {base : ℕ} :
    homeOf (Lives vs plan base) a = some p ↔ Lives vs plan base a p :=
  homeOf_eq_some fun _ _ _ hp hq => hp.unique hplan hq

variable {base : ℕ} {rebuilt : List (AgentArg β)}

theorem getElem?_rebuilt {P : Arg β → AgentArg β → Prop} (h : List.Forall₂ P args rebuilt) (i : ℕ) :
    args[i]? = none ∧ rebuilt[i]? = none ∨ ∃ arg a, args[i]? = some arg ∧ rebuilt[i]? = some a ∧ P arg a := by
  induction h generalizing i with
  | nil => simp
  | cons hp _ ih =>
    cases i with
    | zero => exact .inr ⟨_, _, rfl, rfl, hp⟩
    | succ i => simpa using ih i

theorem map_given {arg : Arg β → AgentArg β → Prop} (hgiven : ∀ x a, arg x a → a.given = x.given)
    (h : List.Forall₂ arg args rebuilt) : rebuilt.map AgentArg.given = args.map Arg.given := by
  induction h with
  | nil => rfl
  | cons hp _ ih => rw [map_cons, map_cons, hgiven _ _ hp, ih]

theorem Placed.map_home (hplan : plan.Ok vs) {j i : ℕ} {v : View} {span : CopySpan} (hspan : plan.spans[i]? = some span)
    (h : Placed vs plan j v span) {index : List ℕ} (hindex : Inside index v.layout) :
    ((List.range v.elem.bytes).map fun k =>
        v.desc.aligned + v.desc.offset.toNat * v.elem.bytes + offset index v.layout * v.elem.bytes + k).map
        (homeOf (Lives vs plan base)) =
      ((List.range v.elem.bytes).map fun k => (base + i,
        plan.place j + offset index (layoutOf (plan.wireDims j v.desc.dims)) * v.elem.bytes + k)).map some := by
  rw [List.map_map, List.map_map]
  refine map_congr_left fun k hk => ?_
  rw [comp_apply, comp_apply, home_eq_some hplan]
  refine ⟨i, span, hspan, rfl, ?_⟩
  rw [← h.start]
  exact h.element index k hindex (List.mem_range.mp hk)

theorem relocates (hplan : plan.Ok vs) (h : List.Forall₂ (Matches vs plan base) args rebuilt) :
    Relocates (homeOf (Lives vs plan base)) (locateHere args) (locateThere rebuilt) := by
  refine ⟨fun a b p ha hb => ((home_eq_some hplan).mp ha).injective ((home_eq_some hplan).mp hb), fun i index => ?_⟩
  rcases getElem?_rebuilt h i with ⟨hnone, hnone'⟩ | ⟨arg, a, harg, ha, -, hmatch⟩
  · exact .inl ⟨by simp [locateHere, hnone], by simp [locateThere, hnone']⟩
  cases hview : arg.view with
  | none =>
    rw [hview] at hmatch
    refine .inl ⟨by simp [locateHere, harg, hview], ?_⟩
    rw [locateThere, ha]
    cases a with
    | view elem r o dims => exact absurd rfl (hmatch elem r o dims)
    | scalar bytes => rfl
    | emptySlot => rfl
  | some v =>
    rw [hview] at hmatch
    obtain ⟨j, r, o, rfl, hv, hplace⟩ := hmatch
    have hhere : (args[i]?).bind Arg.view = some v := by rw [harg, bind_some, hview]
    obtain ⟨-, hnonneg⟩ := hplan.view j v hv
    by_cases hindex : Inside index v.layout
    · cases hof : plan.of j with
      | none => exact absurd hindex (not_inside_of_empty (hplan.empty j v hv hof))
      | some n =>
        obtain ⟨span, hspan, hplaced⟩ := hplan.placed j v n hv hof
        obtain ⟨rfl, rfl⟩ := hplace n hof
        exact .inr ⟨_, _, locateHere_of_inside hhere hnonneg hplaced.shift hindex,
          locateThere_of_inside ha (wireDims_nonNegative hnonneg) ((inside_wireDims hnonneg).mpr hindex),
          hplaced.map_home hplan hspan hindex⟩
    · refine .inl ⟨locateHere_of_not_inside fun u hu => ?_, locateThere_of_not_inside ha ?_⟩
      · rwa [← Option.some.inj (hhere.symm.trans hu)]
      · rwa [inside_wireDims hnonneg]

theorem Worker.fetch_eq {r handle n : ℕ} (hok : w.table.Ok w.id) (hregion : w.table.regions[r]? = some ⟨handle, n, w.id, true⟩)
    (hn : 0 < n) (hreply : n ≤ w.maxReply) : w.fetch handle n = some ((List.range n).map fun k => w.memory (r, k)) := by
  have hresolve : w.table.resolve (handle + 0) = some (r, 0) := hok.resolve hregion rfl hn
  rw [Nat.add_zero] at hresolve
  simp only [Worker.fetch, hresolve, hregion]
  rw [if_neg (by omega)]
  simp

variable [Zero β]

theorem remoteFetchStaged_span (hplan : plan.Ok vs) {span : CopySpan} (hspan : span ∈ plan.spans) {r handle : ℕ}
    (hok : w.table.Ok w.id) (hregion : w.table.regions[r]? = some ⟨handle, span.bytes, w.id, true⟩)
    (hreply : span.bytes ≤ w.maxReply) (mem : ℕ → β) :
    ∃ mem', remoteFetchStaged w mem ⟨handle, span.start, span.bytes, span.packed vs plan⟩ = some mem' ∧
      (∀ a, a ∉ spanBytes vs plan span → mem' a = mem a) ∧
      ∀ k a, (spanBytes vs plan span)[k]? = some a → mem' a = w.memory (r, k) := by
  have hpos := hplan.pos span hspan
  have hlength := hplan.length span hspan
  have hfetch := Worker.fetch_eq hok hregion hpos hreply
  have hbyte : ∀ k < span.bytes, ((List.range span.bytes).map fun k => w.memory (r, k)).getD k 0 = w.memory (r, k) := by
    intro k hk
    simp [hk]
  cases hpacked : span.packed vs plan with
  | none =>
    have hbytes : spanBytes vs plan span = (List.range span.bytes).map (span.start + ·) := by simp [spanBytes, hpacked]
    simp only [remoteFetchStaged, Nat.ne_of_gt hpos, if_false, hfetch, map_some, Option.some.injEq, exists_eq_left']
    rw [hbytes]
    constructor
    · intro a ha
      rw [if_neg]
      rintro ⟨hle, hlt⟩
      exact ha (List.mem_map.mpr ⟨a - span.start, List.mem_range.mpr (by omega), by omega⟩)
    · intro k a hk
      rw [List.getElem?_map, map_eq_some_iff] at hk
      obtain ⟨k', hk', rfl⟩ := hk
      obtain ⟨hlt, rfl⟩ : k < span.bytes ∧ k = k' := by simpa [List.getElem?_eq_some_iff] using hk'
      rw [if_pos (by omega), Nat.add_sub_cancel_left, hbyte k hlt]
  | some p =>
    obtain ⟨hfst, hsnd⟩ := blocks_spanBytes hplan hspan hpacked
    simp only [remoteFetchStaged, hfetch, map_some, Option.some.injEq, exists_eq_left']
    obtain ⟨houtside, hinside⟩ := viewCopyScatter_eq mem
      (fun k => ((List.range span.bytes).map fun k => w.memory (r, k)).getD k 0) hfst hsnd (hplan.nodup span hspan)
    refine ⟨houtside, fun k a hk => ?_⟩
    rw [hinside k a hk, hbyte k]
    have := (List.getElem?_eq_some_iff.mp hk).1
    omega

theorem fetchAll_append (w : Worker β) (xs ys : List Staged) (mem : ℕ → β) :
    fetchAll w (xs ++ ys) mem = (fetchAll w xs mem).bind (fetchAll w ys) := by
  induction xs generalizing mem with
  | nil => rfl
  | cons x xs ih =>
    rw [cons_append, fetchAll, fetchAll]
    cases remoteFetchStaged w mem x with
    | none => rfl
    | some mem' => exact ih mem'

theorem fetchAll_empties (w : Worker β) {empties : List Staged} (h : ∀ st ∈ empties, st.bytes = 0 ∧ st.dense = none)
    (mem : ℕ → β) : fetchAll w empties mem = some mem := by
  induction empties with
  | nil => rfl
  | cons st empties ih =>
    obtain ⟨hbytes, hdense⟩ := h st mem_cons_self
    have hfetch : remoteFetchStaged w mem st = some mem := by simp [remoteFetchStaged, hbytes, hdense]
    rw [fetchAll, hfetch]
    exact ih fun st hst => h st (mem_cons_of_mem _ hst)

theorem fetchAll_spans (hplan : plan.Ok vs) (hok : w.table.Ok w.id) {base n : ℕ} {copies : List CopySpan}
    {spans : List Staged} (hlength : spans.length = copies.length)
    (hcopies : ∀ (i : ℕ) (span : CopySpan), copies[i]? = some span → plan.spans[n + i]? = some span)
    (hspans : ∀ (i : ℕ) (span : CopySpan), copies[i]? = some span → span.bytes ≤ w.maxReply ∧ ∃ handle,
      spans[i]? = some ⟨handle, span.start, span.bytes, span.packed vs plan⟩ ∧
      w.table.regions[base + n + i]? = some ⟨handle, span.bytes, w.id, true⟩) (mem : ℕ → β) :
    ∃ mem', fetchAll w spans mem = some mem' ∧ (∀ a, (∀ span ∈ copies, a ∉ spanBytes vs plan span) → mem' a = mem a) ∧
      ∀ (i k a : ℕ) (span : CopySpan), copies[i]? = some span → (spanBytes vs plan span)[k]? = some a →
        mem' a = w.memory (base + n + i, k) := by
  induction copies generalizing n spans mem with
  | nil =>
    obtain rfl : spans = [] := List.length_eq_zero_iff.mp hlength
    exact ⟨mem, rfl, by simp, by simp⟩
  | cons span copies ih =>
    obtain ⟨hreply, handle, hat, hregion⟩ := hspans 0 span rfl
    have hspan : plan.spans[n]? = some span := hcopies 0 span rfl
    cases spans with
    | nil => cases hat
    | cons st spans =>
      obtain rfl : st = ⟨handle, span.start, span.bytes, span.packed vs plan⟩ := by simpa using hat
      obtain ⟨mem₁, hfetch, houtside, hinside⟩ :=
        remoteFetchStaged_span hplan (mem_of_getElem? hspan) hok hregion hreply mem
      have hshift : ∀ i, n + 1 + i = n + (i + 1) := fun i => by omega
      have hcopies' : ∀ (i : ℕ) (span : CopySpan), copies[i]? = some span → plan.spans[n + 1 + i]? = some span := by
        intro i span' hi
        rw [hshift]
        exact hcopies (i + 1) span' (by simpa using hi)
      obtain ⟨mem', hfetch', houtside', hinside'⟩ := ih (by simpa using hlength) hcopies' (by
        intro i span' hi
        rw [Nat.add_assoc, hshift, ← Nat.add_assoc]
        simpa using hspans (i + 1) span' (by simpa using hi)) mem₁
      rw [fetchAll, hfetch]
      refine ⟨mem', hfetch', fun a ha => ?_, fun i k a span' hi hk => ?_⟩
      · rw [houtside' a fun span hspan => ha span (mem_cons_of_mem _ hspan), houtside a (ha span mem_cons_self)]
      · cases i with
        | zero =>
          obtain rfl : span = span' := by simpa using hi
          -- No later span writes this byte.
          rw [houtside' a, hinside k a hk]
          intro other hother hmem
          obtain ⟨i, hi⟩ := mem_iff_getElem?.mp hother
          have heq := hplan.disjoint n (n + 1 + i) span other a hspan (hcopies' i other hi) (mem_of_getElem? hk) hmem
          omega
        | succ i =>
          rw [hinside' i k a span' (by simpa using hi) hk, Nat.add_assoc, hshift, ← Nat.add_assoc]

end

variable [Zero β] {scratch limit : ℕ} {s : Encoding β} {spans : List Staged} {kernel : Kernel β}

structure Dispatches (w : Worker β) (args : List (Arg β)) : Prop where
  descriptors : (args.map Arg.descriptorBytes).sum ≤ w.descriptorRoom
  slots : ∀ elem rank desc, .slot elem rank desc ∈ args → rank ≤ abiMaxRank

variable (h : Encoded mem w args s vs plan spans)
include h

theorem Encoded.rebuilds (hdispatch : Dispatches w args) :
    ∃ rebuilt, agentRebuildArgs s.worker.table s.worker.descriptorRoom s.out 0 = some rebuilt ∧
      List.Forall₂ (Matches vs plan w.table.regions.length) args rebuilt := by
  refine agentRebuildArgs_eq h.beyond (fun i arg harg => h.rebuildArg harg fun elem rank desc heq => ?_) ?_
  · exact hdispatch.slots elem rank desc (heq ▸ mem_of_getElem? harg)
  · rw [Nat.zero_add, h.extends_worker.descriptorRoom]
    exact hdispatch.descriptors

theorem Encoded.agree : Agree (homeOf (Lives vs plan w.table.regions.length)) mem s.worker.memory := by
  rintro a ⟨r, k⟩ hhome
  obtain ⟨i, span, hi, hr, hk⟩ := (home_eq_some h.plan_ok).mp hhome
  obtain ⟨handle, -, -, hholds⟩ := h.span i span hi
  obtain rfl : r = w.table.regions.length + i := hr
  exact hholds.memory k (mem a) (by rw [List.getElem?_map, hk, map_some])

theorem Encoded.remoteRun (hdispatch : Dispatches w args)
    (hreply : ∀ st ∈ s.staged, st.bytes ≤ w.maxReply) : remoteRun kernel s mem = some (runHere kernel args mem) := by
  obtain ⟨rebuilt, hrebuilt, hmatches⟩ := h.rebuilds hdispatch
  obtain ⟨empties, hempties, hstaged⟩ := h.staged
  have hrelocates := relocates h.plan_ok hmatches
  have hgiven : rebuilt.map AgentArg.given = args.map Arg.given := map_given (fun _ _ hm => hm.1) hmatches
  have hagree := hrelocates.run_agree (kernel (args.map Arg.given)) h.agree
  obtain ⟨mem', hfetch, houtside, hinside⟩ := fetchAll_spans (w := runThere kernel rebuilt s.worker) (n := 0) h.plan_ok
    h.extends_worker.ok h.length (fun i span hi => by rwa [Nat.zero_add]) (fun i span hi => by
      obtain ⟨handle, -, hat, hholds⟩ := h.span i span hi
      have hbytes : ((spanBytes vs plan span).map mem).length = span.bytes := by
        rw [length_map, h.plan_ok.length span (mem_of_getElem? hi)]
      have hregion := hholds.region
      rw [hbytes] at hregion
      have hle := hreply _ (hstaged ▸ mem_append_left empties (mem_of_getElem? hat))
      exact ⟨h.extends_worker.maxReply ▸ hle, handle, hat, hregion⟩) mem
  rw [Remote.remoteRun, hrebuilt]
  simp only
  rw [hstaged, fetchAll_append, hfetch, bind_some, fetchAll_empties _ hempties, Option.some.injEq]
  funext a
  cases hhome : homeOf (Lives vs plan w.table.regions.length) a with
  | none =>
    rw [runHere, hrelocates.run_outside _ mem hhome]
    refine houtside a fun span hspan hmem => ?_
    obtain ⟨i, hi⟩ := mem_iff_getElem?.mp hspan
    obtain ⟨k, hk⟩ := mem_iff_getElem?.mp hmem
    exact homeOf_eq_none.mp hhome (w.table.regions.length + i, k) ⟨i, span, hi, rfl, hk⟩
  | some place =>
    obtain ⟨i, span, hi, hr, hk⟩ := (home_eq_some h.plan_ok).mp hhome
    rw [hinside i place.2 a span hi hk, runHere, ← hagree a place hhome, runThere, hgiven, Nat.add_zero, ← hr]

omit h

structure Within (scratch limit : ℕ) (w : Worker β) (args : List (Arg β)) : Prop where
  ready : ∀ arg ∈ args, arg.Ready
  views : ∀ arg ∈ args, ∀ v, arg.view = some v → v.desc.dims.length ≤ abiMaxRank ∧ v.Fits
  number : (viewsFrom 0 args).length ≤ maxStaged
  limit_le : 8 ≤ limit
  spans : ∀ plan, viewCopyPlan ((viewsFrom 0 args).map Prod.fst) = .ok plan → ∀ span ∈ plan.spans, span.bytes ≤ limit
  transfers : w.Serves scratch limit (viewsFrom 0 args).length
  replies : limit ≤ w.maxReply

/-- A call that is staged leaves local memory as a direct run does, and a call within the limits is staged. -/
theorem remote_transparent (kernel : Kernel β) (hok : w.table.Ok w.id) (hlocal : ∀ arg ∈ args, arg.Local)
    (hdispatch : Dispatches w args) :
    (∀ s, remoteEncodeArgs scratch mem w args = .ok s → (∀ st ∈ s.staged, st.bytes ≤ w.maxReply) →
      remoteRun kernel s mem = some (runHere kernel args mem)) ∧
    (Within scratch limit w args → ∃ s, remoteEncodeArgs scratch mem w args = .ok s ∧
      remoteRun kernel s mem = some (runHere kernel args mem)) := by
  refine ⟨fun s hencode hreply => ?_, fun hwithin => ?_⟩
  · obtain ⟨plan, spans, -, hencoded⟩ := remoteEncodeArgs_ok hok hlocal hencode
    exact hencoded.remoteRun hdispatch hreply
  obtain ⟨s, hencode⟩ : ∃ s, remoteEncodeArgs scratch mem w args = .ok s :=
    remoteEncodeArgs_accepts hok hlocal hwithin.ready hwithin.views hwithin.number hwithin.limit_le hwithin.spans
      hwithin.transfers
  obtain ⟨plan, spans, hplan, hencoded⟩ := remoteEncodeArgs_ok hok hlocal hencode
  refine ⟨s, hencode, hencoded.remoteRun hdispatch fun st hst => ?_⟩
  obtain ⟨empties, hempties, hstaged⟩ := hencoded.staged
  rw [hstaged] at hst
  rcases List.mem_append.mp hst with hspan | hempty
  · obtain ⟨i, hi⟩ := mem_iff_getElem?.mp hspan
    have hlt : i < plan.spans.length := hencoded.length ▸ (List.getElem?_eq_some_iff.mp hi).1
    obtain ⟨handle, -, hat, -⟩ := hencoded.span i _ (List.getElem?_eq_getElem hlt)
    obtain rfl := Option.some.inj (hi.symm.trans hat)
    exact (hwithin.spans plan hplan _ (getElem_mem hlt)).trans hwithin.replies
  · rw [(hempties st hempty).1]
    exact Nat.zero_le _

def overlappingCall : List (Arg ℕ) :=
  [.memref .i8 (some ⟨1000, 0, [(4, 1)]⟩), .memref .i8 (some ⟨1000, 2, [(4, 1)]⟩), .memref .i16 (some ⟨2000, 0, [(3, 2)]⟩),
    .memref .i8 (some ⟨3000, 0, [(0, 1)]⟩), .scalar .i8 [7]]

def freshWorker : Worker ℕ := ⟨1, ⟨[], 16, fun _ => 4096⟩, fun _ => 0, 4096, 4096⟩

def copyingKernel : Kernel ℕ := fun _ => .write 0 [2] [9] (.read 1 [0] fun bytes => .write 2 [1] (bytes ++ [7]) .done)

theorem freshWorker_ok : freshWorker.table.Ok freshWorker.id :=
  ⟨by decide, by decide, by simp [freshWorker], by simp [freshWorker]⟩

theorem overlappingCall_views {P : View → Prop} (h : ∀ v ∈ (viewsFrom 0 overlappingCall).map Prod.fst, P v) :
    ∀ arg ∈ overlappingCall, ∀ v, arg.view = some v → P v := by
  intro arg harg v hv
  obtain ⟨i, hi⟩ := mem_iff_getElem?.mp harg
  exact h v (List.mem_map.mpr ⟨(v, i), mem_viewsFrom.mpr ⟨Nat.zero_le _, by simp [hi, hv]⟩, rfl⟩)

theorem overlappingCall_within : Within 4096 64 freshWorker overlappingCall where
  ready := by simp [overlappingCall, Arg.Ready, Dtype.bytes]
  views := overlappingCall_views (by decide)
  number := by decide
  limit_le := by decide
  spans := by
    intro plan hplan span hspan
    have hall : (match viewCopyPlan ((viewsFrom 0 overlappingCall).map Prod.fst) with
      | .ok plan => plan.spans.all fun span => decide (span.bytes ≤ 64)
      | .error _ => false) = true := by decide
    rw [hplan] at hall
    simpa using List.all_eq_true.mp hall span hspan
  transfers := Worker.serves_of_room (by decide) (by decide) (by decide) (by decide) (by decide)
  replies := by decide

theorem remote_transparent_overlapping : ∃ s mem', remoteEncodeArgs 4096 id freshWorker overlappingCall = .ok s ∧
    remoteRun copyingKernel s id = some mem' ∧ mem' 1002 = 9 ∧ mem' 2002 = 2002 ∧ mem' 2004 = 9 ∧ mem' 2005 = 7 := by
  have hlocal : ∀ arg ∈ overlappingCall, arg.Local :=
    overlappingCall_views (by decide)
  have hdispatch : Dispatches freshWorker overlappingCall := ⟨by decide, by simp [overlappingCall]⟩
  obtain ⟨s, hencode, hrun⟩ := (remote_transparent copyingKernel freshWorker_ok hlocal hdispatch).2 overlappingCall_within
  exact ⟨s, _, hencode, hrun, by decide, by decide, by decide, by decide⟩

end Vx.Remote
