import Vx.Remote.ViewCopy

namespace Vx.Remote

open Option Function
open Function (update)
open Lib.Strided

variable {β : Type}

section

def elementBytes (start b : ℕ) (layout : Layout) : List ℕ :=
  (offsets layout).flatMap fun o => (List.range b).map fun k => start + o * b + k

theorem length_elementBytes (start b : ℕ) (layout : Layout) : (elementBytes start b layout).length = count layout * b := by
  simp [elementBytes, List.length_flatMap, length_offsets]

theorem getElem?_elementBytes {start b k : ℕ} {layout : Layout} {index : List ℕ} (h : Inside index layout) (hk : k < b) :
    (elementBytes start b layout)[offset index (dense layout) * b + k]? = some (start + offset index layout * b + k) := by
  rw [elementBytes, getElem?_flatMap (fun o _ => by simp) _ hk, getElem?_offsets h, bind_some]
  simp [hk]

theorem mem_elementBytes {start b a : ℕ} {layout : Layout} :
    a ∈ elementBytes start b layout ↔ ∃ index k, Inside index layout ∧ k < b ∧ a = start + offset index layout * b + k := by
  simp only [elementBytes, List.mem_flatMap, mem_offsets, List.mem_map, List.mem_range]
  constructor
  · rintro ⟨o, ⟨index, hindex, rfl⟩, k, hk, rfl⟩
    exact ⟨index, k, hindex, hk, rfl⟩
  · rintro ⟨index, k, hindex, hk, rfl⟩
    exact ⟨_, ⟨index, hindex, rfl⟩, k, hk, rfl⟩

theorem foldl_update_of_notMem {γ ι : Type} [DecidableEq ι] (key : γ → ι) (value : γ → β) (l : List γ) (f : ι → β)
    {a : ι} (ha : a ∉ l.map key) : l.foldl (fun f p => update f (key p) (value p)) f a = f a := by
  induction l generalizing f with
  | nil => rfl
  | cons p l ih =>
    rw [List.map_cons, List.mem_cons, not_or] at ha
    rw [List.foldl_cons, ih _ ha.2, update_of_ne ha.1]

theorem foldl_update_of_mem {γ ι : Type} [DecidableEq ι] (key : γ → ι) (value : γ → β) {l : List γ} (f : ι → β)
    (hl : (l.map key).Nodup) {p : γ} (hp : p ∈ l) :
    l.foldl (fun f p => update f (key p) (value p)) f (key p) = value p := by
  induction l generalizing f with
  | nil => cases hp
  | cons q l ih =>
    rw [List.map_cons, List.nodup_cons] at hl
    rw [List.foldl_cons]
    rcases List.mem_cons.mp hp with rfl | hp
    · rw [foldl_update_of_notMem key value l _ hl.1, update_self]
    · exact ih _ hl.2 hp

variable {blocks : List Block} {bytes : List ℕ}

theorem viewCopyGather_eq (mem dense : ℕ → β) (hfst : (blocks.flatMap Block.pairs).map Prod.fst = List.range bytes.length)
    (hsnd : (blocks.flatMap Block.pairs).map Prod.snd = bytes) :
    (List.range bytes.length).map (viewCopyGather blocks mem dense) = bytes.map mem := by
  have hfold : viewCopyGather blocks mem dense =
      (blocks.flatMap Block.pairs).foldl (fun dense p => update dense p.1 (mem p.2)) dense := by
    rw [List.foldl_flatMap]
    rfl
  have hnodup : ((blocks.flatMap Block.pairs).map Prod.fst).Nodup := hfst ▸ List.nodup_range
  rw [← hfst, ← hsnd, List.map_map, List.map_map]
  refine List.map_congr_left fun p hp => ?_
  rw [comp_apply, hfold]
  exact foldl_update_of_mem Prod.fst (fun p => mem p.2) dense hnodup hp

theorem viewCopyScatter_eq (mem dense : ℕ → β)
    (hfst : (blocks.flatMap Block.pairs).map Prod.fst = List.range bytes.length)
    (hsnd : (blocks.flatMap Block.pairs).map Prod.snd = bytes) (hnodup : bytes.Nodup) :
    (∀ a, a ∉ bytes → viewCopyScatter blocks dense mem a = mem a) ∧
      ∀ k a, bytes[k]? = some a → viewCopyScatter blocks dense mem a = dense k := by
  have hfold : viewCopyScatter blocks dense mem =
      (blocks.flatMap Block.pairs).foldl (fun mem p => update mem p.2 (dense p.1)) mem := by
    rw [List.foldl_flatMap]
    rfl
  constructor
  · intro a ha
    rw [hfold]
    exact foldl_update_of_notMem Prod.snd (fun p => dense p.1) _ mem (hsnd ▸ ha)
  · intro k a hk
    have hlt : k < bytes.length := (List.getElem?_eq_some_iff.mp hk).1
    have hpair : (k, a) ∈ blocks.flatMap Block.pairs := by
      have hk' : ((blocks.flatMap Block.pairs).map Prod.snd)[k]? = some a := hsnd ▸ hk
      rw [List.getElem?_map, map_eq_some_iff] at hk'
      obtain ⟨p, hp, rfl⟩ := hk'
      have hfst' : ((blocks.flatMap Block.pairs).map Prod.fst)[k]? = some k := by
        rw [hfst]
        simp [hlt]
      rw [List.getElem?_map, hp, map_some, Option.some.injEq] at hfst'
      rw [← hfst']
      exact List.mem_of_getElem? hp
    rw [hfold]
    exact foldl_update_of_mem Prod.snd (fun p => dense p.1) mem (hsnd ▸ hnodup) hpair

end

theorem blockLoop_eq {dims : Layout} (block : ℕ → List ℕ → Block) (bytes : ℕ) {idx : List ℕ} {l : List (List ℕ)}
    (h : Visits (next dims) idx l) (dense : ℕ) {fuel : ℕ} (hfuel : l.length ≤ fuel) :
    blockLoop dims block bytes fuel idx dense = l.mapIdx fun i idx => block (dense + i * bytes) idx := by
  induction h generalizing dense fuel with
  | stop hstop =>
    cases fuel with
    | zero => simp at hfuel
    | succ fuel => simp [blockLoop, hstop]
  | more hstep hl ih =>
    cases fuel with
    | zero => simp at hfuel
    | succ fuel =>
      rw [blockLoop, hstep, List.mapIdx_cons]
      simp only [Nat.zero_mul, Nat.add_zero, List.cons.injEq, true_and]
      rw [ih (dense + bytes) (by simpa using hfuel)]
      refine congrArg (List.mapIdx · _) ?_
      funext i idx
      rw [Nat.succ_mul]
      congr 1
      omega

theorem Block.pairs_fst (block : Block) :
    block.pairs.map Prod.fst = (List.range (block.height * block.width)).map (block.dense + ·) := by
  simp only [Block.pairs, List.map_flatMap, List.map_map, range_mul]
  refine List.flatMap_congr fun h _ => List.map_congr_left fun w _ => ?_
  simp only [comp_apply]
  omega

theorem Block.pairs_snd (block : Block) : block.pairs.map Prod.snd =
      (List.range block.height).flatMap fun h => (List.range block.width).map fun w => block.view + h * block.pitch + w := by
  simp only [Block.pairs, List.map_flatMap, List.map_map]
  rfl

theorem flatMap_mapIdx_place {γ δ : Type} (l : List γ) (n : ℕ) {mk : ℕ → γ → δ} {f : δ → List ℕ}
    (hf : ∀ i x, f (mk i x) = (List.range n).map (i * n + ·)) : (l.mapIdx mk).flatMap f = List.range (l.length * n) := by
  have hmap : (l.mapIdx mk).map f = (List.range l.length).map fun i => (List.range n).map (i * n + ·) := by
    refine List.ext_getElem (by simp) fun i hi hi' => ?_
    simp [hf]
  rw [range_mul, List.flatMap_def, List.flatMap_def, hmap]

theorem flatMap_mapIdx_value {γ δ : Type} (l : List γ) {mk : ℕ → γ → δ} {f : δ → List ℕ} {g : γ → List ℕ}
    (hf : ∀ i x, f (mk i x) = g x) : (l.mapIdx mk).flatMap f = l.flatMap g := by
  have hmap : (l.mapIdx mk).map f = l.map g := by
    refine List.ext_getElem (by simp) fun i hi hi' => ?_
    simp [hf]
  rw [List.flatMap_def, List.flatMap_def, hmap]

variable {start b width : ℕ} {rows : Layout} {bytes : List ℕ}

theorem blocks_pairs (hbytes : bytes = (offsets rows).flatMap fun o => (List.range width).map fun w => start + o * b + w)
    (hpos : ∀ dim ∈ rows, 0 < dim.1) {blocks : List Block} (hblocks : blocks = match rows.getLast? with
      | none => [⟨0, start, width, width, 1⟩]
      | some row => blockLoop rows.dropLast
          (fun dense idx => ⟨dense, start + offset idx rows.dropLast * b, width, row.2 * b, row.1⟩)
          (width * row.1) (count rows.dropLast) (rows.dropLast.map fun _ => 0) 0) :
    (blocks.flatMap Block.pairs).map Prod.fst = List.range bytes.length ∧
      (blocks.flatMap Block.pairs).map Prod.snd = bytes := by
  have hlength : bytes.length = count rows * width := by
    simp [hbytes, List.length_flatMap, length_offsets]
  rw [hlength]
  cases hrow : rows.getLast? with
  | none =>
    obtain rfl : rows = [] := List.getLast?_eq_none_iff.mp hrow
    rw [hrow] at hblocks
    subst hblocks hbytes
    simp only [List.flatMap_singleton, Block.pairs_fst, Block.pairs_snd]
    simp [count, offsets, indices, offset]
  | some row =>
    have hsplit : rows = rows.dropLast ++ [row] := (List.dropLast_append_getLast? row hrow).symm
    have houter : ∀ dim ∈ rows.dropLast, 0 < dim.1 := fun dim hdim => hpos dim (List.dropLast_subset _ hdim)
    rw [hrow] at hblocks
    simp only at hblocks
    rw [blockLoop_eq _ _ (visits_indices houter) 0 (length_indices _).le] at hblocks
    subst hblocks
    constructor
    · have hcount : count rows * width = (indices rows.dropLast).length * (width * row.1) := by
        conv_lhs => rw [hsplit]
        simp only [count, List.map_append, List.prod_append, List.map_cons, List.map_nil, List.prod_singleton]
        rw [length_indices, count]
        ring
      rw [hcount, List.map_flatMap]
      refine flatMap_mapIdx_place _ _ fun i idx => ?_
      simp only [Block.pairs_fst, Nat.zero_add, Nat.mul_comm width]
    · rw [hbytes]
      conv_rhs => rw [hsplit, offsets_append, offsets_singleton, List.flatMap_assoc, offsets, List.flatMap_map]
      rw [List.map_flatMap]
      refine flatMap_mapIdx_value _ fun i idx => ?_
      simp only [Block.pairs_snd, List.map_map, List.flatMap_map]
      refine List.flatMap_congr fun h _ => List.map_congr_left fun w _ => ?_
      simp only [comp_apply]
      ring

theorem elementBytes_filter {layout : Layout} (h : ∀ dim ∈ layout, 0 < dim.1) :
    elementBytes start b (layout.filter fun dim => 1 < dim.1) = elementBytes start b layout := by
  rw [elementBytes, offsets_filter h, elementBytes]

theorem elementBytes_run (n : ℕ) : elementBytes start b (rows ++ [(n, 1)]) =
    (offsets rows).flatMap fun o => (List.range (n * b)).map fun w => start + o * b + w := by
  rw [elementBytes, offsets_append, offsets_singleton, List.flatMap_assoc]
  refine List.flatMap_congr fun o _ => ?_
  rw [range_mul, List.map_flatMap, List.flatMap_map, List.flatMap_map]
  refine List.flatMap_congr fun i _ => ?_
  rw [List.map_map]
  refine List.map_congr_left fun k _ => ?_
  simp only [comp_apply]
  ring

theorem viewCopyBlocks_pairs {layout : Layout} (h : ∀ dim ∈ layout, 0 < dim.1) :
    ((viewCopyBlocks start b layout).flatMap Block.pairs).map Prod.fst =
        List.range (elementBytes start b layout).length ∧
      ((viewCopyBlocks start b layout).flatMap Block.pairs).map Prod.snd = elementBytes start b layout := by
  rw [← elementBytes_filter h]
  have hpos : ∀ dim ∈ layout.filter fun dim => 1 < dim.1, 0 < dim.1 :=
    fun dim hdim => h dim (List.mem_of_mem_filter hdim)
  generalize hdims : (layout.filter fun dim => 1 < dim.1) = dims at hpos
  cases hinner : dims.getLast? with
  | none =>
    obtain rfl : dims = [] := List.getLast?_eq_none_iff.mp hinner
    have hbytes : elementBytes start b [] =
        (offsets []).flatMap fun o => (List.range b).map fun w => start + o * b + w := rfl
    exact blocks_pairs hbytes (by simp) (by simp [viewCopyBlocks, hdims])
  | some inner =>
    have hsplit : dims = dims.dropLast ++ [inner] := (List.dropLast_append_getLast? inner hinner).symm
    by_cases hrun : inner.2 = 1
    · have hone : inner = (inner.1, 1) := by rw [← hrun]
      have hbytes : elementBytes start b dims =
          (offsets dims.dropLast).flatMap fun o => (List.range (inner.1 * b)).map fun w => start + o * b + w := by
        conv_lhs => rw [hsplit, hone]
        exact elementBytes_run inner.1
      refine blocks_pairs hbytes (fun dim hdim => hpos dim (List.dropLast_subset _ hdim)) ?_
      cases hrow : dims.dropLast.getLast? <;> simp [viewCopyBlocks, hdims, hinner, hrun, hrow]
    · have hbytes : elementBytes start b dims =
          (offsets dims).flatMap fun o => (List.range b).map fun w => start + o * b + w := rfl
      refine blocks_pairs hbytes hpos ?_
      simp only [viewCopyBlocks, hdims, hinner, if_neg hrun]

end Vx.Remote
