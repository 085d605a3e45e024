import Vx.Remote.Staging

namespace Vx.Remote

open List Option Bool
open Lib.Grouping (Interval)

variable {β : Type}

def Arg.Ready : Arg β → Prop
  | .scalar kind _ => kind.bytes ≠ 0
  | .memref _ desc => desc.isSome
  | .slot _ _ _ => True

def Worker.Serves (scratch limit : ℕ) : ℕ → Worker β → Prop
  | 0, _ => True
  | n + 1, w => ∀ bytes : List β, 0 < bytes.length → bytes.length ≤ limit →
      ∃ handle w', remoteTransfer scratch w bytes = .ok (handle, w') ∧ Worker.Serves scratch limit n w'

theorem Worker.Serves.mono {scratch limit n m : ℕ} {w : Worker β} (h : w.Serves scratch limit n) (hm : m ≤ n) :
    w.Serves scratch limit m := by
  induction n generalizing m w with
  | zero =>
    obtain rfl : m = 0 := by omega
    trivial
  | succ n ih =>
    cases m with
    | zero => trivial
    | succ m =>
      intro bytes hpos hlimit
      obtain ⟨handle, w', htransfer, hserves⟩ := h bytes hpos hlimit
      exact ⟨handle, w', htransfer, ih hserves (by omega)⟩

theorem Worker.serves_of_room {scratch limit n : ℕ} {w : Worker β} (hid : 0 < w.id) (hmax : w.id ≤ workerMax)
    (hscratch : 24 + limit ≤ scratch) (hregions : w.table.regions.length + n ≤ w.table.capacity)
    (hoffset : w.table.nextOffset w.id + n * (limit + gapAfter limit) ≤ offsetMask) : w.Serves scratch limit n := by
  induction n generalizing w with
  | zero => trivial
  | succ n ih =>
    intro bytes hpos hlimit
    have hgap : gapAfter bytes.length ≤ gapAfter limit := by
      unfold gapAfter
      split_ifs <;> omega
    rw [Nat.succ_mul] at hoffset
    obtain ⟨handle, table, halloc, hlength, hcapacity, hnext⟩ : ∃ handle table,
        w.table.alloc w.id bytes.length = some (handle, table) ∧ table.regions.length = w.table.regions.length + 1 ∧
        table.capacity = w.table.capacity ∧
        table.nextOffset w.id = w.table.nextOffset w.id + bytes.length + gapAfter bytes.length := by
      simp only [Table.alloc]
      rw [if_neg (by omega), if_neg (by omega), if_neg (by omega)]
      exact ⟨_, _, rfl, by simp, rfl, Function.update_self ..⟩
    have htransfer : ∃ w', remoteTransfer scratch w bytes = .ok (handle, w') ∧ w'.id = w.id ∧ w'.table = table := by
      rw [remoteTransfer, if_neg (by omega), Worker.transfer, halloc]
      exact ⟨_, rfl, rfl, rfl⟩
    obtain ⟨w', htransfer, hw, htable⟩ := htransfer
    refine ⟨handle, w', htransfer, ih (hw ▸ hid) (hw ▸ hmax) ?_ ?_⟩
    · rw [htable]
      omega
    · rw [htable, hw]
      omega

theorem num_add_count_le (views : ℕ → Option Interval) (link : ℕ → ℕ) (m : ℕ) :
    ((List.range m).foldl (giveSpan views link) ⟨fun _ => (0, 0), 0, fun _ => none⟩).num +
      (List.range m).countP (fun i => (views i).isNone) ≤ m := by
  induction m with
  | zero => simp
  | succ m ih =>
    rw [range_succ, foldl_append, countP_append, foldl_cons, foldl_nil, countP_singleton]
    generalize (List.range m).foldl (giveSpan views link) ⟨fun _ => (0, 0), 0, fun _ => none⟩ = given at ih ⊢
    cases hm : views m with
    | none =>
      simp only [giveSpan, hm, isNone_none, if_true]
      omega
    | some v =>
      have hnum : (giveSpan views link given m).num ≤ given.num + 1 := by
        simp only [giveSpan, hm]
        split <;> simp
      simp only [isNone_some, false_eq_true, if_false]
      omega

theorem viewCopyPlan_spans_le {vs : List View} {plan : Plan} (h : viewCopyPlan vs = .ok plan) :
    plan.spans.length + (List.range vs.length).countP (fun i => (plan.of i).isNone) ≤ vs.length := by
  unfold viewCopyPlan at h
  split at h
  · cases h
  next ms hms =>
    cases h
    have hle := num_add_count_le (fun i => (ms[i]?).join) (groups (fun i => (ms[i]?).join) vs.length) vs.length
    have hok := giveSpans_ok (fun i => (ms[i]?).join) vs.length
    have hcount : (List.range vs.length).countP (fun i => ((giveSpans (fun i => (ms[i]?).join) vs.length).of i).isNone) =
        (List.range vs.length).countP (fun i => ((ms[i]?).join).isNone) := by
      refine countP_congr fun i hi => ?_
      rw [isNone_iff_eq_none, isNone_iff_eq_none, hok.unplaced]
      have := List.mem_range.mp hi
      exact ⟨fun h => h.resolve_left (by omega), .inr⟩
    simp only [Spans.plan, length_map, length_range, hcount]
    exact hle

variable [Zero β] {scratch limit : ℕ} {mem : ℕ → β} {vs : List View} {plan : Plan} {s : Encoding β}

theorem encodeView_accepts {kind : WireKind} {elem : Dtype} {desc : Desc}
    (hlocal : addrIsHandle (memrefData desc elem) = false) (hrank : desc.dims.length ≤ abiMaxRank)
    (hroom : s.views.length < maxStaged) : ∃ s', encodeView scratch kind elem desc s = .ok s' := by
  rw [encodeView, if_neg (by omega), hlocal]
  exact ⟨_, rfl⟩

theorem encodeArg_accepts {arg : Arg β} (hlocal : arg.Local) (hready : arg.Ready)
    (hrank : ∀ v, arg.view = some v → v.desc.dims.length ≤ abiMaxRank)
    (hroom : s.views.length + (viewsFrom s.out.length [arg]).length ≤ maxStaged) :
    ∃ s', encodeArg scratch s arg = .ok s' := by
  have hone : ∀ v, arg.view = some v → s.views.length < maxStaged := by
    intro v hv
    have : (viewsFrom s.out.length [arg]).length = 1 := by simp [viewsFrom, hv]
    omega
  cases arg with
  | scalar kind bytes => exact ⟨_, by rw [encodeArg, if_neg hready]⟩
  | memref elem desc =>
    obtain ⟨desc, rfl⟩ := Option.isSome_iff_exists.mp hready
    exact encodeView_accepts (hlocal _ rfl).1 (hrank _ rfl) (hone _ rfl)
  | slot elem rank desc =>
    cases desc with
    | none => exact ⟨_, rfl⟩
    | some desc =>
      by_cases hnull : desc.aligned = 0
      · exact ⟨_, by rw [encodeArg, if_pos hnull]⟩
      · have hview : (Arg.slot elem rank (some desc) : Arg β).view = some ⟨desc, elem⟩ := by simp [Arg.view, hnull]
        rw [encodeArg, if_neg hnull]
        exact encodeView_accepts (hlocal _ hview).1 (hrank _ hview) (hone _ hview)

variable {args : List (Arg β)}

theorem encodeAll_accepts (hlocal : ∀ arg ∈ args, arg.Local)
    (hready : ∀ arg ∈ args, arg.Ready) (hrank : ∀ arg ∈ args, ∀ v, arg.view = some v → v.desc.dims.length ≤ abiMaxRank)
    (hroom : s.views.length + (viewsFrom s.out.length args).length ≤ maxStaged) :
    ∃ s', encodeAll scratch args s = .ok s' := by
  induction args generalizing s with
  | nil => exact ⟨s, rfl⟩
  | cons arg args ih =>
    rw [viewsFrom_cons _ arg args, length_append] at hroom
    have hmem : arg ∈ arg :: args := mem_cons_self
    obtain ⟨s₁, hs₁⟩ := encodeArg_accepts (hlocal arg hmem) (hready arg hmem) (hrank arg hmem)
      (show s.views.length + (viewsFrom s.out.length [arg]).length ≤ maxStaged by omega)
    obtain ⟨-, -, rfl⟩ := encodeArg_local (hlocal arg hmem) hs₁
    rw [encodeAll, hs₁]
    refine ih (fun a ha => hlocal a (mem_cons_of_mem _ ha)) (fun a ha => hready a (mem_cons_of_mem _ ha))
      (fun a ha => hrank a (mem_cons_of_mem _ ha)) ?_
    simp only [length_append, length_singleton]
    omega

variable {w : Worker β}

theorem stageSpans_accepts (hplan : plan.Ok vs) {spans : List CopySpan} (hspans : ∀ span ∈ spans, span ∈ plan.spans)
    (hlimit : ∀ span ∈ spans, span.bytes ≤ limit) {staged : List Staged} {n : ℕ}
    (hserves : w.Serves scratch limit (spans.length + n)) :
    ∃ w' staged', stageSpans scratch mem vs plan spans w staged = .ok (w', staged') ∧ w'.Serves scratch limit n := by
  induction spans generalizing w staged with
  | nil => exact ⟨w, staged, rfl, by simpa using hserves⟩
  | cons span spans ih =>
    have hmem := hspans span mem_cons_self
    have hlength : ((stageSpan mem vs plan span).1).length = span.bytes := by
      rw [stageSpan_fst hplan hmem, length_map, hplan.length span hmem]
    rw [length_cons, Nat.add_right_comm] at hserves
    obtain ⟨handle, w₁, htransfer, hserves₁⟩ := hserves (stageSpan mem vs plan span).1
      (hlength ▸ hplan.pos span hmem) (hlength ▸ hlimit span mem_cons_self)
    simp only [stageSpans, htransfer]
    exact ih (fun span hspan => hspans span (mem_cons_of_mem _ hspan))
      (fun span hspan => hlimit span (mem_cons_of_mem _ hspan)) hserves₁

theorem nameViews_accepts {spans empties : List Staged} {views : List (View × ℕ)} {v : ℕ}
    (hstaged : s.staged = spans ++ empties) (hspans : ∀ v span, plan.of v = some span → span < spans.length)
    (helem : ∀ view ∈ views, 0 < view.1.elem.bytes ∧ view.1.elem.bytes ≤ limit)
    (hroom : s.staged.length + (List.range' v views.length).countP (fun i => (plan.of i).isNone) ≤ maxStaged)
    (hserves : s.worker.Serves scratch limit ((List.range' v views.length).countP fun i => (plan.of i).isNone)) :
    ∃ s', nameViews scratch plan 0 v views s = .ok s' := by
  induction views generalizing s v empties with
  | nil => exact ⟨s, rfl⟩
  | cons view views ih =>
    rw [length_cons, List.range'_succ, countP_cons] at hroom hserves
    cases hof : plan.of v with
    | none =>
      simp only [hof, isNone_none, if_true] at hroom hserves
      obtain ⟨hpos, hle⟩ := helem view mem_cons_self
      obtain ⟨handle, w', htransfer, hserves'⟩ :=
        hserves (List.replicate view.1.elem.bytes 0) (by simpa using hpos) (by simpa using hle)
      have hempty : stageEmpty scratch s.worker s.staged view.1.elem =
          .ok (handle, w', s.staged ++ [⟨handle, 0, 0, none⟩]) := by
        rw [stageEmpty, if_neg (by omega), htransfer]
      simp only [nameViews, nameView, hof, hempty]
      refine ih (by simp only [hstaged, append_assoc]; rfl)
        (fun view hview => helem view (mem_cons_of_mem _ hview)) ?_ hserves'
      simp only [length_append, length_singleton]
      omega
    | some span =>
      simp only [hof, isNone_some, false_eq_true, if_false, Nat.add_zero] at hroom hserves
      have hat : ∃ staged, s.staged[0 + span]? = some staged := by
        rw [hstaged, Nat.zero_add, List.getElem?_append_left (hspans v span hof)]
        exact ⟨_, List.getElem?_eq_getElem (hspans v span hof)⟩
      obtain ⟨staged, hat⟩ := hat
      simp only [nameViews, nameView, hof, hat]
      exact ih hstaged (fun view hview => helem view (mem_cons_of_mem _ hview)) hroom hserves

theorem remoteEncodeArgs_accepts (hok : w.table.Ok w.id)
    (hlocal : ∀ arg ∈ args, arg.Local) (hready : ∀ arg ∈ args, arg.Ready)
    (hviews : ∀ arg ∈ args, ∀ v, arg.view = some v → v.desc.dims.length ≤ abiMaxRank ∧ v.Fits)
    (hnumber : (viewsFrom 0 args).length ≤ maxStaged) (hlimit : 8 ≤ limit)
    (hspans : ∀ plan, viewCopyPlan ((viewsFrom 0 args).map Prod.fst) = .ok plan → ∀ span ∈ plan.spans, span.bytes ≤ limit)
    (hserves : w.Serves scratch limit (viewsFrom 0 args).length) :
    ∃ s, remoteEncodeArgs scratch mem w args = .ok s := by
  have hfits : ∀ v ∈ (viewsFrom 0 args).map Prod.fst, v.Fits := by
    intro v hv
    obtain ⟨⟨u, i⟩, hu, rfl⟩ := List.mem_map.mp hv
    obtain ⟨arg, harg, hview⟩ := Option.bind_eq_some_iff.mp (mem_viewsFrom.mp hu).2
    exact (hviews arg (mem_of_getElem? harg) u hview).2
  obtain ⟨s₀, hencode⟩ : ∃ s₀, encodeAll scratch args ⟨w, [], [], []⟩ = .ok s₀ :=
    encodeAll_accepts hlocal hready (fun arg harg v hv => (hviews arg harg v hv).1) (by simpa using hnumber)
  obtain ⟨plan, hplan⟩ := viewCopyPlan_of_fits hfits
  have hplan_ok := viewCopyPlan_ok (inMemory_viewsFrom hlocal) hplan
  have hle := viewCopyPlan_spans_le hplan
  rw [length_map, range_eq_range'] at hle
  obtain ⟨w', staged, hstage, hserves'⟩ : ∃ w' staged,
      stageSpans scratch mem ((viewsFrom 0 args).map Prod.fst) plan plan.spans w [] = .ok (w', staged) ∧
      w'.Serves scratch limit ((List.range' 0 (viewsFrom 0 args).length).countP fun i => (plan.of i).isNone) :=
    stageSpans_accepts hplan_ok (fun _ h => h) (hspans plan hplan) (hserves.mono hle)
  obtain ⟨-, spans, hspans_eq, hlength, -⟩ := stageSpans_ok hplan_ok (fun _ h => h) hok hstage
  obtain rfl : staged = spans := hspans_eq
  obtain ⟨-, -, rfl⟩ := encodeAll_local hlocal hencode
  rw [remoteEncodeArgs, hencode]
  simp only [nil_append, length_nil, hplan, Nat.zero_add]
  rw [if_neg (by omega), hstage]
  refine nameViews_accepts (append_nil staged).symm ?_ ?_ ?_ hserves'
  · exact fun v span hof => hlength ▸ hplan_ok.lt v span hof
  · intro view hview
    obtain ⟨j, hj⟩ := mem_iff_getElem?.mp hview
    exact ⟨(hplan_ok.view j view.1 (by simp [hj])).1, (view.1.elem.bytes_le).trans hlimit⟩
  · simp only [hlength]
    omega

end Vx.Remote
