import Vx.Capacity.TarjanFinish

namespace Vx.Capacity.Tarjan

open Function (update update_of_ne update_self)

variable {succ : ℕ → List ℕ} {n : ℕ} {t : Tarjan} {gray rest : List (ℕ × ℕ)} {pending : Option ℕ} {v w i : ℕ}

structure Head (succ : ℕ → List ℕ) (n : ℕ) (t : Tarjan) (gray : List (ℕ × ℕ)) (pending : Option ℕ) : Prop where
  core : Core succ n t gray pending
  work_eq : t.work = (pending.toList.map fun w => (w, 0)) ++ gray
  started : ∀ e ∈ gray, e.2 ≠ 0

def remaining (succ : ℕ → List ℕ) (n : ℕ) (t : Tarjan) (gray : List (ℕ × ℕ)) : ℕ :=
  (gray.map fun e => (succ e.1).length - e.2 + 1).sum +
    ∑ v ∈ Finset.range n, if t.ids v = none then (succ v).length + 1 else 0

theorem remaining_enter (hnew : t.ids w = none) (hw : w < n) :
    remaining succ n (t.enter w) ((w, 0) :: gray) = remaining succ n t gray := by
  have hmem := Finset.mem_range.mpr hw
  have hrest : ∀ x ∈ (Finset.range n).erase w, (if (t.enter w).ids x = none then (succ x).length + 1 else 0) =
      if t.ids x = none then (succ x).length + 1 else 0 := by
    intro x hx
    simp [enter, Finset.ne_of_mem_erase hx]
  simp only [remaining, List.map_cons, List.sum_cons]
  rw [← Finset.add_sum_erase _ _ hmem, ← Finset.add_sum_erase _ (fun v => if t.ids v = none then _ else 0) hmem,
    Finset.sum_congr rfl hrest]
  simp only [enter, update_self, reduceCtorEq, ↓reduceIte, hnew]
  omega

theorem Core.order_eq (h : Core succ n t gray pending) {x : ℕ} (hx : x ∈ t.stack) : t.ids x = some (t.order x) := by
  obtain ⟨k, hk⟩ := Option.ne_none_iff_exists'.mp (h.stack_seen hx)
  simp [order, hk]

theorem Head.current (h : Head succ n t gray pending) (hw : t.work = (v, i) :: rest) :
    Core succ n (if i = 0 then t.enter v else t) ((v, i) :: rest) none ∧ (∀ e ∈ rest, e.2 ≠ 0) ∧
      remaining succ n (if i = 0 then t.enter v else t) ((v, i) :: rest) = remaining succ n t gray ∧
      ∀ x, t.Seen x ∨ pending = some x → (if i = 0 then t.enter v else t).Seen x := by
  have hwork := h.work_eq
  rw [hw] at hwork
  cases pending with
  | none =>
    obtain rfl : (v, i) :: rest = gray := by simpa using hwork
    have hi : i ≠ 0 := h.started (v, i) List.mem_cons_self
    simp only [hi, ↓reduceIte]
    refine ⟨h.core, fun e he => h.started e (List.mem_cons_of_mem _ he), trivial, ?_⟩
    rintro x (hx | hx)
    · exact hx
    · cases hx
  | some w =>
    obtain ⟨⟨rfl, rfl⟩, rfl⟩ : (v = w ∧ i = 0) ∧ rest = gray := by simpa using hwork
    obtain ⟨hnew, hlt, _⟩ := h.core.pending_new v rfl
    refine ⟨core_enter h.core, h.started, remaining_enter (by simpa [Seen] using hnew) hlt, ?_⟩
    rintro x (hx | hx)
    · exact (seen_enter t v x).mpr (Or.inr hx)
    · exact (seen_enter t v x).mpr (Or.inl (Option.some.inj hx).symm)

theorem follow_ids (t : Tarjan) (v i w : ℕ) (rest : List (ℕ × ℕ)) : (t.follow v i w rest).ids = t.ids := by
  unfold follow
  cases hid : t.ids w with
  | none => simp [hid]
  | some id => by_cases hon : t.onStack w = true <;> simp [hid, hon, lower]

variable (h : Core succ n t ((v, i) :: rest) none)
include h

theorem follow_head (hstart : ∀ e ∈ rest, e.2 ≠ 0) (hw : (succ v)[i]? = some w) (hwn : w < n) :
    ∃ pending, Head succ n (t.follow v i w rest) ((v, i + 1) :: rest) pending := by
  have htop : (v, i) ∈ (v, i) :: rest := List.mem_cons_self
  have hstart' : ∀ e ∈ (v, i + 1) :: rest, e.2 ≠ 0 := by
    intro e he
    rcases List.mem_cons.mp he with rfl | he
    · exact Nat.succ_ne_zero i
    · exact hstart e he
  cases hid : t.ids w with
  | none =>
    refine ⟨some w, ?_, by simp [follow, hid], hstart'⟩
    have hc : Core succ n t ((v, i + 1) :: rest) (some w) :=
      core_advance h hw hwn (fun _ _ => rfl) (le_refl _) (h.low_reach _ htop)
        (fun hs => absurd hid (h.stack_seen hs)) (Or.inr ⟨by simp [Seen, hid], rfl⟩)
    simpa [follow, hid] using hc.withWork ((w, 0) :: (v, i + 1) :: rest)
  | some id =>
    have hseen : t.Seen w := by simp [Seen, hid]
    by_cases hon : t.onStack w = true
    · refine ⟨none, ?_, by simp [follow, hid, hon, lower], hstart'⟩
      have hstack := (h.onStack_iff w).mp hon
      have hord : t.order w = id := by simp [order, hid]
      have hself : update t.low v (min (t.low v) id) v = min (t.low v) id := update_self ..
      have hreal : ∃ y ∈ t.stack, t.order y = min (t.low v) id ∧ Reach succ v y := by
        rcases min_choice (t.low v) id with hm | hm
        · rw [hm]
          exact h.low_reach _ htop
        · rw [hm]
          exact ⟨w, hstack, hord, .single (List.mem_of_getElem? hw)⟩
      have hc : Core succ n (t.lower v id) ((v, i + 1) :: rest) none :=
        core_advance h hw hwn (fun x hx => update_of_ne hx ..) (by rw [hself]; exact min_le_left _ _)
          (by rwa [hself]) (fun _ => by rw [hself, hord]; exact min_le_right _ _) (Or.inl ⟨hseen, rfl⟩)
      simpa [follow, hid, hon, lower] using hc.withWork ((v, i + 1) :: rest)
    · refine ⟨none, ?_, by simp [follow, hid, hon], hstart'⟩
      have hc : Core succ n t ((v, i + 1) :: rest) none :=
        core_advance h hw hwn (fun _ _ => rfl) (le_refl _) (h.low_reach _ htop)
          (fun hs => absurd ((h.onStack_iff w).mpr hs) hon) (Or.inl ⟨hseen, rfl⟩)
      simpa [follow, hid, hon] using hc.withWork ((v, i + 1) :: rest)

theorem closeComponent_head (hstart : ∀ e ∈ rest, e.2 ≠ 0) (hi : (succ v)[i]? = none) (hroot : t.low v = t.order v) :
    ∃ t', { t with work := rest }.closeComponent v = some t' ∧ Head succ n t' rest none ∧ t'.ids = t.ids := by
  obtain ⟨above, below, hs, hp⟩ := popUntil_of_mem (h.gray_stack _ List.mem_cons_self)
  refine ⟨_, ?_, ⟨(core_finish_root h hi hroot hs).withWork rest, by simp, hstart⟩, rfl⟩
  simp only [closeComponent, hp, Option.bind_eq_bind, Option.bind_some]
  rfl

theorem finish_head (hstart : ∀ e ∈ rest, e.2 ≠ 0) (hi : (succ v)[i]? = none) :
    ∃ t', t.finish v rest = some t' ∧ Head succ n t' rest none ∧ t'.ids = t.ids := by
  have hid : t.ids v = some (t.order v) := h.order_eq (h.gray_stack _ List.mem_cons_self)
  by_cases hroot : t.low v = t.order v
  · obtain ⟨t', ht', hh, hids⟩ := closeComponent_head h hstart hi hroot
    refine ⟨t', ?_, hh, hids⟩
    have hparent : { t with work := rest }.lowerParent v = { t with work := rest } := by
      cases rest with
      | nil => rfl
      | cons e rest =>
        have h₁ := h.gray_lt_top (e := e) List.mem_cons_self
        have h₂ := h.low_le e (List.mem_cons_of_mem _ List.mem_cons_self)
        have hmin : min (t.low e.1) (t.low v) = t.low e.1 := min_eq_left (by omega)
        simp [lowerParent, lower, hmin]
    simp only [finish, hparent, hroot, hid, ↓reduceIte]
    exact ht'
  · cases rest with
    | nil =>
      obtain ⟨e, he, _⟩ := h.to_gray_below hroot
      simp at he
    | cons e rest =>
      obtain ⟨p, j⟩ := e
      have hne : v ≠ p := by
        rintro rfl
        exact lt_irrefl _ (h.gray_lt_top (e := (v, j)) List.mem_cons_self)
      refine ⟨_, ?_, ⟨(core_finish_inner h hi hroot).withWork ((p, j) :: rest), by simp, hstart⟩, rfl⟩
      simp [finish, lowerParent, lower, hne, hid, hroot]

omit h
variable (hsucc : ∀ v < n, ∀ w ∈ succ v, w < n)
include hsucc

theorem step_head (h : Head succ n t gray pending) (hw : t.work = (v, i) :: rest) :
    ∃ t' gray' pending', t.step succ = some t' ∧ Head succ n t' gray' pending' ∧
      remaining succ n t' gray' + 1 = remaining succ n t gray ∧
      ∀ x, t.Seen x ∨ pending = some x → t'.Seen x ∨ pending' = some x := by
  obtain ⟨hcore, hstart, hrem, hseen⟩ := h.current hw
  have hv : v < n := by
    obtain ⟨k, hk⟩ := Option.ne_none_iff_exists'.mp (hcore.stack_seen (hcore.gray_stack _ List.mem_cons_self))
    exact (hcore.id_lt v k hk).2
  cases hnext : (succ v)[i]? with
  | some w =>
    obtain ⟨pending', hhead⟩ := follow_head hcore hstart hnext (hsucc v hv w (List.mem_of_getElem? hnext))
    refine ⟨_, _, pending', by simp only [step, hw, hnext], hhead, ?_, ?_⟩
    · obtain ⟨hlt, _⟩ := List.getElem?_eq_some_iff.mp hnext
      rw [← hrem]
      simp only [remaining, List.map_cons, List.sum_cons, follow_ids]
      omega
    · intro x hx
      left
      simpa only [Seen, follow_ids] using hseen x hx
  | none =>
    obtain ⟨t', ht', hhead, hids⟩ := finish_head hcore hstart hnext
    refine ⟨t', _, none, by simp only [step, hw, hnext, ht'], hhead, ?_, ?_⟩
    · have hle := List.getElem?_eq_none_iff.mp hnext
      rw [← hrem]
      simp only [remaining, List.map_cons, List.sum_cons, hids]
      omega
    · intro x hx
      left
      simpa only [Seen, hids] using hseen x hx

theorem loop_head {fuel : ℕ} (h : Head succ n t gray pending) (hfuel : remaining succ n t gray < fuel) :
    ∃ t', loop succ fuel t = some t' ∧ Core succ n t' [] none ∧ ∀ x, t.Seen x ∨ pending = some x → t'.Seen x := by
  induction fuel generalizing t gray pending with
  | zero => omega
  | succ fuel ih =>
    cases hwork : t.work with
    | nil =>
      have he := h.work_eq
      rw [hwork] at he
      obtain ⟨hp, rfl⟩ := List.append_eq_nil_iff.mp he.symm
      obtain rfl : pending = none := by simpa using hp
      refine ⟨t, by simp [loop, hwork], h.core, ?_⟩
      rintro x (hx | hx)
      · exact hx
      · cases hx
    | cons e rest =>
      obtain ⟨v, i⟩ := e
      obtain ⟨t₁, gray₁, pending₁, hstep, hhead, hrem, hseen⟩ := step_head hsucc h hwork
      obtain ⟨t', hloop, hcore, hseen'⟩ := ih hhead (by omega)
      refine ⟨t', ?_, hcore, fun x hx => hseen' x (hseen x hx)⟩
      simp [loop, hwork, hstep, hloop]

omit hsucc in
theorem remaining_nil_le (succ : ℕ → List ℕ) (n : ℕ) (t : Tarjan) : remaining succ n t [] ≤ passes succ n := by
  simp only [remaining, passes, List.map_nil, List.sum_nil, zero_add]
  apply Finset.sum_le_sum
  intro v _
  split <;> omega

omit hsucc in
theorem core_start : Core succ n start [] none := by
  constructor <;> simp [start, Seen, Topological]

theorem fromRoot_core {root : ℕ} (hroot : root < n) (h : Core succ n t [] none) :
    ∃ t', fromRoot succ (passes succ n + 1) t root = some t' ∧ Core succ n t' [] none ∧ t'.Seen root ∧
      ∀ x, t.Seen x → t'.Seen x := by
  by_cases hnew : t.ids root = none
  · have hhead : Head succ n { t with work := [(root, 0)] } [] (some root) := by
      refine ⟨?_, by simp, by simp⟩
      refine { h.withWork [(root, 0)] with pending_new := ?_, explored_seen := ?_ }
      · rintro w hw
        obtain rfl := Option.some.inj hw
        exact ⟨by simp [Seen, hnew], hroot, by simp⟩
      · intro x w hx hw
        rcases h.explored_seen x w hx hw with hs | hc
        · exact Or.inl hs
        · cases hc
    obtain ⟨t', hloop, hcore, hseen⟩ := loop_head hsucc hhead (Nat.lt_succ_of_le (remaining_nil_le succ n _))
    refine ⟨t', by simpa [fromRoot, hnew] using hloop, hcore, hseen root (Or.inr rfl), ?_⟩
    exact fun x hx => hseen x (Or.inl hx)
  · exact ⟨t, by simp [fromRoot, hnew], h, hnew, fun _ hx => hx⟩

theorem fromRoots_core {roots : List ℕ} (hroots : ∀ r ∈ roots, r < n) (h : Core succ n t [] none) :
    ∃ t', roots.foldlM (fromRoot succ (passes succ n + 1)) t = some t' ∧ Core succ n t' [] none ∧
      (∀ r ∈ roots, t'.Seen r) ∧ ∀ x, t.Seen x → t'.Seen x := by
  induction roots generalizing t with
  | nil => exact ⟨t, rfl, h, by simp, fun _ hx => hx⟩
  | cons root roots ih =>
    obtain ⟨t₁, hfrom, hcore₁, hr, hmono₁⟩ := fromRoot_core hsucc (hroots root List.mem_cons_self) h
    obtain ⟨t', hfold, hcore, hseen, hmono⟩ := ih (fun r hr => hroots r (List.mem_cons_of_mem _ hr)) hcore₁
    refine ⟨t', by simp [hfrom, hfold], hcore, ?_, fun x hx => hmono x (hmono₁ x hx)⟩
    intro r hrm
    rcases List.mem_cons.mp hrm with rfl | hrm
    · exact hmono _ hr
    · exact hseen r hrm

end Tarjan

/-- Every function is in one group, a group is strongly connected, and the calls of a group stay in it or go
to groups before it. -/
structure Components (succ : ℕ → List ℕ) (n : ℕ) (sccs : List (List ℕ)) : Prop where
  nonempty : ∀ comp ∈ sccs, comp ≠ []
  nodup : sccs.flatten.Nodup
  mem_iff : ∀ v, v ∈ sccs.flatten ↔ v < n
  connected : ∀ comp ∈ sccs, ∀ x ∈ comp, ∀ y ∈ comp, Tarjan.Reach succ x y
  topological : Tarjan.Topological succ sccs

theorem sccsOf_components {succ : ℕ → List ℕ} {n : ℕ} (hsucc : ∀ v < n, ∀ w ∈ succ v, w < n) :
    ∃ sccs, sccsOf succ n = some sccs ∧ Components succ n sccs := by
  have hroots : ∀ r ∈ List.range n, r < n := fun r hr => List.mem_range.mp hr
  obtain ⟨t, hfold, hcore, hseen, _⟩ := Tarjan.fromRoots_core hsucc hroots Tarjan.core_start
  have hstack : t.stack = [] := by
    apply List.eq_nil_iff_forall_not_mem.mpr
    intro x hx
    obtain ⟨e, he, _⟩ := hcore.to_gray x hx
    simp at he
  refine ⟨t.sccs, by simp [sccsOf, hfold], hcore.sccs_nonempty, hcore.sccs_nodup, fun v => ?_,
    hcore.sccs_reach, hcore.topological⟩
  have hmem : v ∈ t.sccs.flatten ↔ t.Seen v := by simp [hcore.seen_iff v, hstack]
  rw [hmem]
  constructor
  · intro hv
    obtain ⟨k, hk⟩ := Option.ne_none_iff_exists'.mp hv
    exact (hcore.id_lt v k hk).2
  · exact fun hv => hseen v (List.mem_range.mpr hv)

variable {succ : ℕ → List ℕ} {n : ℕ} {sccs : List (List ℕ)} (h : Components succ n sccs)
include h

theorem Components.edge {i : ℕ} {comp : List ℕ} (hi : sccs[i]? = some comp) {x w : ℕ}
    (hx : x ∈ comp) (hw : w ∈ succ x) : w ∈ comp ∨ ∃ j < i, ∃ group, sccs[j]? = some group ∧ w ∈ group := by
  obtain ⟨hlt, hget⟩ := List.getElem?_eq_some_iff.mp hi
  have hsplit : sccs = sccs.take i ++ comp :: sccs.drop (i + 1) := by
    rw [← hget, List.getElem_cons_drop, List.take_append_drop]
  apply (h.topological _ _ _ hsplit x hx w hw).imp_right
  intro hbefore
  obtain ⟨group, hgroup, hmem⟩ := List.mem_flatten.mp hbefore
  obtain ⟨j, hj, rfl⟩ := List.mem_take_iff_getElem.mp hgroup
  exact ⟨j, by omega, _, List.getElem?_eq_getElem _, hmem⟩

theorem Components.reach {x y : ℕ} (hxy : Tarjan.Reach succ x y) {i : ℕ} {comp : List ℕ}
    (hi : sccs[i]? = some comp) (hx : x ∈ comp) : ∃ j ≤ i, ∃ group, sccs[j]? = some group ∧ y ∈ group := by
  induction hxy with
  | refl => exact ⟨i, le_rfl, comp, hi, hx⟩
  | tail _ hedge ih =>
    obtain ⟨j, hj, group, hgroup, hmem⟩ := ih
    rcases h.edge hgroup hmem hedge with hin | ⟨k, hk, group', hgroup', hmem'⟩
    · exact ⟨j, hj, group, hgroup, hin⟩
    · exact ⟨k, by omega, group', hgroup', hmem'⟩

theorem Components.index_unique {x i j : ℕ} {comp group : List ℕ}
    (hi : sccs[i]? = some comp) (hx : x ∈ comp) (hj : sccs[j]? = some group) (hx' : x ∈ group) : i = j := by
  have hdisjoint := List.pairwise_iff_getElem.mp (List.nodup_flatten.mp h.nodup).2
  obtain ⟨hilt, rfl⟩ := List.getElem?_eq_some_iff.mp hi
  obtain ⟨hjlt, rfl⟩ := List.getElem?_eq_some_iff.mp hj
  rcases lt_trichotomy i j with hlt | heq | hlt
  · exact (hdisjoint i j hilt hjlt hlt hx hx').elim
  · exact heq
  · exact (hdisjoint j i hjlt hilt hlt hx' hx).elim

theorem Components.same_group_iff {x y : ℕ} (hx : x < n) :
    (∃ comp ∈ sccs, x ∈ comp ∧ y ∈ comp) ↔ Tarjan.Reach succ x y ∧ Tarjan.Reach succ y x := by
  constructor
  · rintro ⟨comp, hcomp, hx, hy⟩
    exact ⟨h.connected comp hcomp x hx y hy, h.connected comp hcomp y hy x hx⟩
  rintro ⟨hxy, hyx⟩
  obtain ⟨comp, hcomp, hmem⟩ := List.mem_flatten.mp ((h.mem_iff x).mpr hx)
  obtain ⟨i, hi⟩ := List.mem_iff_getElem?.mp hcomp
  obtain ⟨j, hji, group, hj, hy⟩ := h.reach hxy hi hmem
  obtain ⟨k, hkj, group', hk, hx'⟩ := h.reach hyx hj hy
  have hik := h.index_unique hi hmem hk hx'
  obtain rfl : i = j := by omega
  obtain rfl : comp = group := Option.some_injective _ (hi.symm.trans hj)
  exact ⟨comp, hcomp, hmem, hy⟩

omit h

/-- Each node is in one group, two nodes are in the same group when each can reach the other, and an edge that leaves a
group goes to one before it. -/
theorem tarjan_groups (hsucc : ∀ v < n, ∀ w ∈ succ v, w < n) :
    ∃ sccs, sccsOf succ n = some sccs ∧ (∀ v, sccs.flatten.count v = if v < n then 1 else 0) ∧
      (∀ x < n, ∀ y, (∃ comp ∈ sccs, x ∈ comp ∧ y ∈ comp) ↔ Tarjan.Reach succ x y ∧ Tarjan.Reach succ y x) ∧
      ∀ (i : ℕ) (comp : List ℕ), sccs[i]? = some comp → ∀ x ∈ comp, ∀ w ∈ succ x,
        w ∉ comp → ∃ j < i, ∃ group, sccs[j]? = some group ∧ w ∈ group := by
  obtain ⟨sccs, hsccs, h⟩ := sccsOf_components hsucc
  refine ⟨sccs, hsccs, ?_, fun x hx y => h.same_group_iff hx, ?_⟩
  · intro v
    by_cases hv : v < n
    · rw [if_pos hv]
      exact List.count_eq_one_of_mem h.nodup ((h.mem_iff v).mpr hv)
    · rw [if_neg hv]
      exact List.count_eq_zero.mpr fun hmem => hv ((h.mem_iff v).mp hmem)
  · intro i comp hi x hx w hw hout
    exact (h.edge hi hx hw).resolve_left hout

def pairAndLeaf : ℕ → List ℕ
  | 0 => [1]
  | 1 => [0, 2]
  | _ => []

theorem tarjan_groups_pairAndLeaf :
    sccsOf pairAndLeaf 3 = some [[2], [1, 0]] ∧ ∃ sccs, sccsOf pairAndLeaf 3 = some sccs ∧
      ∀ x < 3, ∀ y, (∃ comp ∈ sccs, x ∈ comp ∧ y ∈ comp) ↔
        Tarjan.Reach pairAndLeaf x y ∧ Tarjan.Reach pairAndLeaf y x := by
  obtain ⟨sccs, hsccs, -, hsame, -⟩ := tarjan_groups (show ∀ v < 3, ∀ w ∈ pairAndLeaf v, w < 3 by decide)
  exact ⟨by decide, sccs, hsccs, hsame⟩

end Vx.Capacity
