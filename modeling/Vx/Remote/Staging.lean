import Vx.Remote.Client
import Vx.Remote.Placement

namespace Vx.Remote

open List Option
open Lib.Strided

variable {β : Type}

section

structure Worker.Holds (w : Worker β) (r handle : ℕ) (bytes : List β) : Prop where
  region : w.table.regions[r]? = some ⟨handle, bytes.length, w.id, true⟩
  memory : ∀ (k : ℕ) (b : β), bytes[k]? = some b → w.memory (r, k) = b

structure Worker.Extends (w w' : Worker β) : Prop where
  id : w'.id = w.id
  maxReply : w'.maxReply = w.maxReply
  descriptorRoom : w'.descriptorRoom = w.descriptorRoom
  ok : w'.table.Ok w'.id
  regions : ∃ new, w'.table.regions = w.table.regions ++ new
  memory : ∀ r k, r < w.table.regions.length → w'.memory (r, k) = w.memory (r, k)

variable {w : Worker β}

theorem Worker.Extends.refl (h : w.table.Ok w.id) : w.Extends w := ⟨rfl, rfl, rfl, h, ⟨[], by simp⟩, fun _ _ _ => rfl⟩

variable {w' : Worker β}

theorem Worker.Extends.length_le (h : w.Extends w') : w.table.regions.length ≤ w'.table.regions.length := by
  obtain ⟨new, hnew⟩ := h.regions
  rw [hnew, length_append]
  omega

theorem Worker.Extends.trans {w w'' : Worker β} (h : w.Extends w') (h' : w'.Extends w'') : w.Extends w'' := by
  obtain ⟨new, hnew⟩ := h.regions
  obtain ⟨new', hnew'⟩ := h'.regions
  refine ⟨h'.id.trans h.id, h'.maxReply.trans h.maxReply, h'.descriptorRoom.trans h.descriptorRoom, h'.ok,
    ⟨new ++ new', by rw [hnew', hnew, append_assoc]⟩, fun r k hr => ?_⟩
  rw [h'.memory r k (hr.trans_le h.length_le), h.memory r k hr]

variable {handle : ℕ} {bytes : List β}

theorem Worker.Holds.extends {r : ℕ} (h : w.Holds r handle bytes) (hw : w.Extends w') : w'.Holds r handle bytes := by
  obtain ⟨new, hnew⟩ := hw.regions
  have hr : r < w.table.regions.length := (List.getElem?_eq_some_iff.mp h.region).1
  refine ⟨?_, fun k b hk => (hw.memory r k hr).trans (h.memory k b hk)⟩
  rw [hnew, List.getElem?_append_left hr, hw.id]
  exact h.region

theorem Worker.Holds.resolve {r o : ℕ} (h : w.Holds r handle bytes)
    (hok : w.table.Ok w.id) (ho : o < bytes.length) : w.table.resolve (handle + o) = some (r, o) :=
  hok.resolve h.region rfl ho

theorem Worker.transfer_ok (hok : w.table.Ok w.id) (h : w.transfer bytes = some (handle, w')) :
    w.Extends w' ∧ w'.table.regions.length = w.table.regions.length + 1 ∧
      w'.Holds w.table.regions.length handle bytes ∧ handle ≠ 0 := by
  unfold Worker.transfer at h
  split at h
  · cases h
  next table halloc =>
    obtain ⟨hok', hregions, -, hhandle⟩ := hok.alloc halloc
    cases h
    refine ⟨⟨rfl, rfl, rfl, hok', ⟨_, hregions⟩, fun r k hr => ?_⟩, ?_, ⟨?_, fun k b hk => ?_⟩, hhandle⟩
    · simp [Nat.ne_of_lt hr]
    · simp [hregions]
    · simp [hregions]
    · simp [hk]

theorem remoteTransfer_ok {scratch : ℕ} (hok : w.table.Ok w.id)
    (h : remoteTransfer scratch w bytes = .ok (handle, w')) :
    w.Extends w' ∧ w'.table.regions.length = w.table.regions.length + 1 ∧
      w'.Holds w.table.regions.length handle bytes ∧ handle ≠ 0 := by
  unfold remoteTransfer at h
  split_ifs at h
  split at h
  · cases h
  next r hr =>
    cases h
    exact Worker.transfer_ok hok hr

def Arg.Local (arg : Arg β) : Prop :=
  ∀ v, arg.view = some v → addrIsHandle (memrefData v.desc v.elem) = false ∧ v.InMemory

def Arg.wire (arg : Arg β) : WireArg β :=
  match arg with
  | .scalar kind bytes => ⟨.scalar kind, 0, [], bytes.take kind.bytes⟩
  | .memref elem desc => ⟨.memref elem, 0, (desc.map Desc.dims).getD [], []⟩
  | .slot elem rank desc => ⟨.slot elem rank, 0, (((Arg.slot elem rank desc : Arg β).view).map fun v => v.desc.dims).getD [], []⟩

def viewsFrom (n : ℕ) (args : List (Arg β)) : List (View × ℕ) :=
  (args.zipIdx n).filterMap fun arg => arg.1.view.map fun v => (v, arg.2)

theorem viewsFrom_cons (n : ℕ) (arg : Arg β) (args : List (Arg β)) :
    viewsFrom n (arg :: args) = viewsFrom n [arg] ++ viewsFrom (n + 1) args := by
  simp only [viewsFrom, zipIdx_cons, zipIdx_nil, filterMap_cons, filterMap_nil]
  cases arg.view <;> rfl

variable {args : List (Arg β)}

theorem mem_viewsFrom {n i : ℕ} {v : View} :
    (v, i) ∈ viewsFrom n args ↔ n ≤ i ∧ (args[i - n]?).bind Arg.view = some v := by
  simp only [viewsFrom, mem_filterMap, Prod.exists, mem_zipIdx_iff_le_and_getElem?_sub, map_eq_some_iff,
    Prod.mk.injEq, bind_eq_some_iff]
  constructor
  · rintro ⟨arg, j, ⟨hle, harg⟩, u, hu, rfl, rfl⟩
    exact ⟨hle, arg, harg, hu⟩
  · rintro ⟨hle, arg, harg, hu⟩
    exact ⟨arg, i, ⟨hle, harg⟩, v, hu, rfl, rfl⟩

theorem viewsFrom_nodup (n : ℕ) (args : List (Arg β)) : ((viewsFrom n args).map Prod.snd).Nodup := by
  induction args generalizing n with
  | nil => simp [viewsFrom]
  | cons arg args ih =>
    rw [viewsFrom_cons, map_append]
    refine List.nodup_append.mpr ⟨?_, ih (n + 1), ?_⟩
    · cases harg : arg.view <;> simp [viewsFrom, harg]
    rintro i hi j hj rfl
    obtain ⟨⟨u, i'⟩, hu, rfl⟩ := List.mem_map.mp hi
    obtain ⟨⟨v, j'⟩, hv, hij⟩ := List.mem_map.mp hj
    have hle' := (mem_viewsFrom.mp hv).1
    have hlt : i' - n < 1 := by
      by_contra hge
      have := (mem_viewsFrom.mp hu).2
      rw [List.getElem?_eq_none (by simp; omega)] at this
      cases this
    omega

theorem inMemory_viewsFrom (hlocal : ∀ arg ∈ args, arg.Local) : ∀ v ∈ (viewsFrom 0 args).map Prod.fst, v.InMemory := by
  intro v hv
  obtain ⟨⟨u, i⟩, hu, rfl⟩ := List.mem_map.mp hv
  obtain ⟨arg, harg, hview⟩ := Option.bind_eq_some_iff.mp (mem_viewsFrom.mp hu).2
  exact (hlocal arg (mem_of_getElem? harg) u hview).2

variable {scratch : ℕ} [Zero β] {s s' : Encoding β}

theorem encodeView_local {kind : WireKind} {elem : Dtype} {desc : Desc}
    (hlocal : addrIsHandle (memrefData desc elem) = false) (h : encodeView scratch kind elem desc s = .ok s') :
    desc.dims.length ≤ abiMaxRank ∧ s' = { s with
      views := s.views ++ [(⟨desc, elem⟩, s.out.length)]
      out := s.out ++ [⟨kind, 0, desc.dims, []⟩] } := by
  unfold encodeView at h
  split_ifs at h with hlimit
  · cases h
    exact ⟨by omega, rfl⟩
  · simp_all

theorem encodeArg_local {arg : Arg β} (hlocal : arg.Local) (h : encodeArg scratch s arg = .ok s') :
    (∀ elem, arg ≠ .memref elem none) ∧ (∀ v, arg.view = some v → v.desc.dims.length ≤ abiMaxRank) ∧ s' = { s with
      views := s.views ++ viewsFrom s.out.length [arg]
      out := s.out ++ [arg.wire] } := by
  cases arg with
  | scalar kind bytes =>
    simp only [encodeArg] at h
    split_ifs at h
    cases h
    simp [Arg.view, viewsFrom, Arg.wire]
  | memref elem desc =>
    cases desc with
    | none => cases h
    | some desc =>
      obtain ⟨hrank, rfl⟩ := encodeView_local (hlocal _ rfl).1 h
      simp [Arg.view, viewsFrom, Arg.wire, hrank]
  | slot elem rank desc =>
    cases desc with
    | none =>
      cases h
      simp [Arg.view, viewsFrom, Arg.wire]
    | some desc =>
      simp only [encodeArg] at h
      split_ifs at h with hnull
      · cases h
        simp [Arg.view, viewsFrom, Arg.wire, hnull]
      · have hview : (Arg.slot elem rank (some desc) : Arg β).view = some ⟨desc, elem⟩ := by simp [Arg.view, hnull]
        obtain ⟨hrank, rfl⟩ := encodeView_local (hlocal _ hview).1 h
        simp [Arg.view, viewsFrom, Arg.wire, hrank, hnull]

theorem encodeAll_local (hlocal : ∀ arg ∈ args, arg.Local) (h : encodeAll scratch args s = .ok s') :
    (∀ arg ∈ args, ∀ elem, arg ≠ .memref elem none) ∧
      (∀ arg ∈ args, ∀ v, arg.view = some v → v.desc.dims.length ≤ abiMaxRank) ∧ s' = { s with
      views := s.views ++ viewsFrom s.out.length args
      out := s.out ++ args.map Arg.wire } := by
  induction args generalizing s with
  | nil =>
    cases h
    simp [viewsFrom]
  | cons arg args ih =>
    rw [encodeAll] at h
    split at h
    · cases h
    next t ht =>
      obtain ⟨hdesc, hrank, rfl⟩ := encodeArg_local (hlocal arg mem_cons_self) ht
      obtain ⟨hdescs, hranks, rfl⟩ := ih (fun a ha => hlocal a (mem_cons_of_mem _ ha)) h
      refine ⟨List.forall_mem_cons.mpr ⟨hdesc, hdescs⟩, List.forall_mem_cons.mpr ⟨hrank, hranks⟩, ?_⟩
      rw [viewsFrom_cons _ arg args]
      simp

end

section
variable {scratch : ℕ} [Zero β] {mem : ℕ → β} {vs : List View} {plan : Plan}

theorem blocks_spanBytes (hplan : plan.Ok vs) {span : CopySpan} (hspan : span ∈ plan.spans) {p : Packed}
    (hpacked : span.packed vs plan = some p) :
    (p.blocks.flatMap Block.pairs).map Prod.fst = List.range (spanBytes vs plan span).length ∧
      (p.blocks.flatMap Block.pairs).map Prod.snd = spanBytes vs plan span := by
  have hbytes : spanBytes vs plan span = elementBytes p.start p.elem.bytes p.layout := by simp [spanBytes, hpacked]
  rw [hbytes]
  exact viewCopyBlocks_pairs (hplan.packedSizes span hspan p hpacked)

theorem stageSpan_fst (hplan : plan.Ok vs) {span : CopySpan} (hspan : span ∈ plan.spans) :
    (stageSpan mem vs plan span).1 = (spanBytes vs plan span).map mem := by
  have hlength := hplan.length span hspan
  cases hpacked : span.packed vs plan with
  | none => simp [stageSpan, spanBytes, hpacked]
  | some p =>
    obtain ⟨hfst, hsnd⟩ := blocks_spanBytes hplan hspan hpacked
    have hgather := viewCopyGather_eq mem (fun _ => 0) hfst hsnd
    rw [hlength] at hgather
    simpa [stageSpan, hpacked] using hgather

theorem stageSpan_snd (mem : ℕ → β) (vs : List View) (plan : Plan) (span : CopySpan) (handle : ℕ) :
    (stageSpan mem vs plan span).2 handle = ⟨handle, span.start, span.bytes, span.packed vs plan⟩ := by
  cases hpacked : span.packed vs plan <;> simp [stageSpan, hpacked]

variable {w' : Worker β} {w : Worker β}

theorem stageSpans_ok (hplan : plan.Ok vs) {spans : List CopySpan} (hspans : ∀ span ∈ spans, span ∈ plan.spans)
    {staged staged' : List Staged} (hok : w.table.Ok w.id)
    (h : stageSpans scratch mem vs plan spans w staged = .ok (w', staged')) :
    w.Extends w' ∧ ∃ new, staged' = staged ++ new ∧ new.length = spans.length ∧
      ∀ (i : ℕ) (span : CopySpan), spans[i]? = some span → ∃ handle ≠ 0,
        new[i]? = some ⟨handle, span.start, span.bytes, span.packed vs plan⟩ ∧
        w'.Holds (w.table.regions.length + i) handle ((spanBytes vs plan span).map mem) := by
  induction spans generalizing w staged with
  | nil =>
    cases h
    exact ⟨.refl hok, [], by simp⟩
  | cons span spans ih =>
    simp only [stageSpans] at h
    split at h
    · cases h
    next handle w₁ htransfer =>
      obtain ⟨hextends, hlength, hholds, hhandle⟩ := remoteTransfer_ok hok htransfer
      rw [stageSpan_fst hplan (hspans span mem_cons_self)] at hholds
      obtain ⟨hextends', new, rfl, hnew, hrest⟩ :=
        ih (fun span hspan => hspans span (mem_cons_of_mem _ hspan)) hextends.ok h
      rw [stageSpan_snd]
      refine ⟨hextends.trans hextends', _ :: new, append_assoc .., by simp [hnew], fun i span' hi => ?_⟩
      cases i with
      | zero =>
        obtain rfl : span = span' := by simpa using hi
        exact ⟨handle, hhandle, rfl, hholds.extends hextends'⟩
      | succ i =>
        obtain ⟨handle', hhandle', hat, hholds'⟩ := hrest i span' (by simpa using hi)
        rw [hlength, Nat.add_assoc, Nat.add_comm 1] at hholds'
        exact ⟨handle', hhandle', by simpa using hat, hholds'⟩

variable {handle : ℕ}

theorem stageEmpty_ok {staged staged' : List Staged} {elem : Dtype}
    (hok : w.table.Ok w.id) (h : stageEmpty scratch w staged elem = .ok (handle, w', staged')) :
    w.Extends w' ∧ staged' = staged ++ [⟨handle, 0, 0, none⟩] ∧ handle ≠ 0 ∧
      ∃ r, w'.Holds r handle (List.replicate elem.bytes 0) := by
  unfold stageEmpty at h
  split_ifs at h
  split at h
  · cases h
  next htransfer =>
    cases h
    obtain ⟨hextends, -, hholds, hhandle⟩ := remoteTransfer_ok hok htransfer
    exact ⟨hextends, rfl, hhandle, _, hholds⟩

def Handle (plan : Plan) (spans : List Staged) (w : Worker β) (v : ℕ) (view : View) (handle : ℕ) : Prop :=
  match plan.of v with
  | some span => ∃ staged, spans[span]? = some staged ∧ handle = staged.handle + plan.place v
  | none => handle ≠ 0 ∧ ∃ r, w.Holds r handle (List.replicate view.elem.bytes 0)

variable {spans : List Staged} {v : ℕ}

theorem Handle.extends {view : View}
    (h : Handle plan spans w v view handle) (hw : w.Extends w') : Handle plan spans w' v view handle := by
  unfold Handle at h ⊢
  split at h
  · exact h
  · obtain ⟨hne, r, hr⟩ := h
    exact ⟨hne, r, hr.extends hw⟩

variable {empties : List Staged}

theorem nameView_ok {s s' : Encoding β} {view : View × ℕ}
    (hstaged : s.staged = spans ++ empties) (hspans : ∀ span, plan.of v = some span → span < spans.length)
    (hok : s.worker.table.Ok s.worker.id) (h : nameView scratch plan 0 s v view = .ok s') :
    s.worker.Extends s'.worker ∧ s'.views = s.views ∧
      (∃ more, (∀ st ∈ more, st.bytes = 0 ∧ st.dense = none) ∧ s'.staged = spans ++ (empties ++ more)) ∧
      ∃ handle, Handle plan spans s'.worker v view.1 handle ∧
        s'.out = s.out.modify view.2 fun a => { a with handle, dims := plan.wireDims v a.dims } := by
  unfold nameView at h
  split at h
  next hof =>
    split at h
    · cases h
    next hempty =>
      cases h
      obtain ⟨hextends, rfl, hne, hholds⟩ := stageEmpty_ok hok hempty
      refine ⟨hextends, rfl, ⟨[⟨_, 0, 0, none⟩], by simp, by simp only [hstaged, append_assoc]; rfl⟩, _, ?_, rfl⟩
      rw [Handle, hof]
      exact ⟨hne, hholds⟩
  next span hof =>
    split at h
    · cases h
    next staged hat =>
      cases h
      rw [Nat.zero_add, hstaged, List.getElem?_append_left (hspans span hof)] at hat
      refine ⟨.refl hok, rfl, ⟨[], by simp, by simp [hstaged]⟩, _, ?_, rfl⟩
      rw [Handle, hof]
      exact ⟨staged, hat, rfl⟩

theorem nameViews_ok {views : List (View × ℕ)} {s s' : Encoding β}
    (hstaged : s.staged = spans ++ empties) (hspans : ∀ v span, plan.of v = some span → span < spans.length)
    (hok : s.worker.table.Ok s.worker.id) (hargs : (views.map Prod.snd).Nodup)
    (h : nameViews scratch plan 0 v views s = .ok s') : s.worker.Extends s'.worker ∧
      (∃ more, (∀ st ∈ more, st.bytes = 0 ∧ st.dense = none) ∧ s'.staged = spans ++ (empties ++ more)) ∧
      (∀ i, i ∉ views.map Prod.snd → s'.out[i]? = s.out[i]?) ∧
      ∀ (j : ℕ) (view : View) (i : ℕ), views[j]? = some (view, i) →
        ∃ handle, Handle plan spans s'.worker (v + j) view handle ∧ s'.out[i]? = s.out[i]?.map fun a =>
          { a with handle, dims := plan.wireDims (v + j) a.dims } := by
  induction views generalizing s v empties with
  | nil =>
    cases h
    exact ⟨.refl hok, ⟨[], by simp, by simp [hstaged]⟩, by simp, by simp⟩
  | cons view views ih =>
    rw [nameViews] at h
    split at h
    · cases h
    next s₁ hname =>
      obtain ⟨hextends, -, ⟨more, hmore, hstaged₁⟩, handle, hhandle, hout⟩ := nameView_ok hstaged (hspans v) hok hname
      rw [map_cons, nodup_cons] at hargs
      obtain ⟨hextends', ⟨more', hmore', hstaged'⟩, hrest, hnamed⟩ := ih hstaged₁ hextends.ok hargs.2 h
      refine ⟨hextends.trans hextends', ⟨more ++ more', ?_, ?_⟩, fun i hi => ?_, fun j u i hj => ?_⟩
      · intro st hst
        exact (List.mem_append.mp hst).elim (hmore st) (hmore' st)
      · rw [hstaged', append_assoc empties]
      · rw [map_cons, mem_cons, not_or] at hi
        rw [hrest i hi.2, hout, List.getElem?_modify_ne _ _ (Ne.symm hi.1)]
      · cases j with
        | zero =>
          obtain rfl : view = (u, i) := by simpa using hj
          refine ⟨handle, hhandle.extends hextends', ?_⟩
          rw [hrest i hargs.1, hout, List.getElem?_modify_eq]
          rfl
        | succ j =>
          have hi : i ∈ views.map Prod.snd := List.mem_map.mpr ⟨(u, i), mem_of_getElem? (by simpa using hj), rfl⟩
          obtain ⟨handle', hhandle', hat⟩ := hnamed j u i (by simpa using hj)
          rw [Nat.add_assoc, Nat.add_comm 1] at hhandle' hat
          refine ⟨handle', hhandle', ?_⟩
          rw [hat, hout, List.getElem?_modify_ne]
          rintro rfl
          exact hargs.1 hi

end

variable {mem : ℕ → β} {w : Worker β} {args : List (Arg β)}

theorem Arg.wire_dims {arg : Arg β} {v : View} (h : arg.view = some v) : arg.wire.dims = v.desc.dims := by
  cases arg with
  | scalar => cases h
  | memref elem desc =>
    obtain ⟨desc, rfl, rfl⟩ := Option.map_eq_some_iff.mp h
    rfl
  | slot elem rank desc => simp [Arg.wire, h]

variable {scratch : ℕ} [Zero β]

structure Encoded (mem : ℕ → β) (w : Worker β) (args : List (Arg β)) (s : Encoding β) (vs : List View) (plan : Plan)
    (spans : List Staged) : Prop where
  plan_ok : plan.Ok vs
  extends_worker : w.Extends s.worker
  staged : ∃ empties, (∀ st ∈ empties, st.bytes = 0 ∧ st.dense = none) ∧ s.staged = spans ++ empties
  length : spans.length = plan.spans.length
  span : ∀ (i : ℕ) (span : CopySpan), plan.spans[i]? = some span → ∃ handle ≠ 0,
    spans[i]? = some ⟨handle, span.start, span.bytes, span.packed vs plan⟩ ∧
    s.worker.Holds (w.table.regions.length + i) handle ((spanBytes vs plan span).map mem)
  described : ∀ arg ∈ args, ∀ elem, arg ≠ .memref elem none
  beyond : s.out.length = args.length
  plain : ∀ (i : ℕ) (arg : Arg β), args[i]? = some arg → arg.view = none → s.out[i]? = some arg.wire
  named : ∀ (i : ℕ) (arg : Arg β) (v : View), args[i]? = some arg → arg.view = some v →
    v.desc.dims.length ≤ abiMaxRank ∧ ∃ j handle, vs[j]? = some v ∧ Handle plan spans s.worker j v handle ∧
      s.out[i]? = some { arg.wire with handle, dims := plan.wireDims j v.desc.dims }

theorem remoteEncodeArgs_ok {s : Encoding β} (hok : w.table.Ok w.id) (hlocal : ∀ arg ∈ args, arg.Local)
    (h : remoteEncodeArgs scratch mem w args = .ok s) :
    ∃ plan spans, viewCopyPlan ((viewsFrom 0 args).map Prod.fst) = .ok plan ∧
      Encoded mem w args s ((viewsFrom 0 args).map Prod.fst) plan spans := by
  unfold remoteEncodeArgs at h
  split at h
  · cases h
  next s₀ hencode =>
    obtain ⟨hdescs, hranks, rfl⟩ := encodeAll_local hlocal hencode
    simp only [nil_append, length_nil] at h
    split at h
    · cases h
    next plan hplan =>
      have hplan_ok := viewCopyPlan_ok (inMemory_viewsFrom hlocal) hplan
      split_ifs at h
      split at h
      · cases h
      next worker staged hstage =>
        obtain ⟨hextends, spans, hspans, hlength, hspan⟩ := stageSpans_ok hplan_ok (fun _ h => h) hok hstage
        obtain rfl : staged = spans := hspans
        have hplaced : ∀ v span, plan.of v = some span → span < staged.length :=
          fun v span hof => hlength ▸ hplan_ok.lt v span hof
        obtain ⟨hextends', ⟨empties, hempties, hstaged⟩, hrest, hnamed⟩ :=
          nameViews_ok (append_nil staged).symm hplaced hextends.ok (viewsFrom_nodup 0 args) h
        have hout : ∀ i : ℕ, (∀ v, (args[i]?).bind Arg.view ≠ some v) → s.out[i]? = args[i]?.map Arg.wire := by
          intro i hi
          rw [hrest i, List.getElem?_map]
          intro hmem
          obtain ⟨⟨v, _⟩, hv, rfl⟩ := List.mem_map.mp hmem
          exact hi v (by simpa using (mem_viewsFrom.mp hv).2)
        have hview : ∀ (i : ℕ) arg v, args[i]? = some arg → arg.view = some v → ∃ j handle,
            (viewsFrom 0 args)[j]? = some (v, i) ∧ Handle plan staged s.worker j v handle ∧
            s.out[i]? = some { arg.wire with handle, dims := plan.wireDims j v.desc.dims } := by
          intro i arg v harg hv
          have hmem : (v, i) ∈ viewsFrom 0 args := mem_viewsFrom.mpr ⟨Nat.zero_le _, by simp [harg, hv]⟩
          obtain ⟨j, hj⟩ := mem_iff_getElem?.mp hmem
          obtain ⟨handle, hhandle, hat⟩ := hnamed j v i hj
          rw [Nat.zero_add] at hhandle hat
          refine ⟨j, handle, hj, hhandle, ?_⟩
          rw [hat, List.getElem?_map, harg, map_some, map_some, Arg.wire_dims hv]
        refine ⟨plan, staged, hplan, hplan_ok, hextends.trans hextends', ⟨empties, hempties, by simpa using hstaged⟩, hlength,
          ?_, hdescs, ?_, ?_, ?_⟩
        · intro i span hi
          obtain ⟨handle, hhandle, hat, hholds⟩ := hspan i span hi
          exact ⟨handle, hhandle, hat, hholds.extends hextends'⟩
        · have hsame : ∀ i : ℕ, s.out[i]? = none ↔ args[i]? = none := by
            intro i
            by_cases hi : ∃ v, (args[i]?).bind Arg.view = some v
            · obtain ⟨v, hv⟩ := hi
              obtain ⟨arg, harg, hv⟩ := Option.bind_eq_some_iff.mp hv
              obtain ⟨j, handle, -, -, hat⟩ := hview i arg v harg hv
              simp [hat, harg]
            · rw [hout i (not_exists.mp hi), map_eq_none_iff]
          have hle := (hsame s.out.length).mp (List.getElem?_eq_none le_rfl)
          have hle' := (hsame args.length).mpr (List.getElem?_eq_none le_rfl)
          rw [List.getElem?_eq_none_iff] at hle hle'
          omega
        · intro i arg harg hnone
          rw [hout i (by simp [harg, hnone]), harg, map_some]
        · intro i arg v harg hv
          obtain ⟨j, handle, hj, hhandle, hat⟩ := hview i arg v harg hv
          exact ⟨hranks arg (mem_of_getElem? harg) v hv, j, handle, by simp [hj], hhandle, hat⟩

end Vx.Remote
