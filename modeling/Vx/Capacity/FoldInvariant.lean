import Vx.Capacity.Fold
import Vx.Capacity.TarjanCorrect

namespace Vx.Capacity.Fold

open List

variable {p : Program} {rank : ℕ → ℕ} {f : Fold}
  {done : ℕ → String → Prop} {n : ℕ} {space : String} {skip : ℕ → Bool}

def own (p : Program) (n : ℕ) (space : String) : UInt64 := bytesIn (p.node n).selfPeak space

def Calls (p : Program) (space : String) (n g : ℕ) (held : UInt64) : Prop :=
  ∃ call ∈ (p.node n).calls, p.index.lookup call.callee = some g ∧ bytesIn call.live space = held

theorem Calls.mem_succ {g : ℕ} {held : UInt64} (h : Calls p space n g held) : g ∈ p.succ n := by
  obtain ⟨call, hmem, hg, _⟩ := h
  exact List.mem_filterMap.mpr ⟨call, hmem, hg⟩

structure Best (p : Program) (f : Fold) (space : String) (skip : ℕ → Bool) (floor : UInt64)
    (calls : List (CallEdge × ℕ)) (best : UInt64 × Option ℕ) : Prop where
  floor_le : floor ≤ best.1
  call_le : ∀ item ∈ calls, ∀ g, p.index.lookup item.1.callee = some g → skip g = false →
    bytesIn item.1.live space + f.totalOf g space ≤ best.1
  attained : best = (floor, none) ∨ ∃ item ∈ calls, ∃ g, p.index.lookup item.1.callee = some g ∧
    skip g = false ∧ best = (bytesIn item.1.live space + f.totalOf g space, some item.2)

variable {floor : UInt64} {best : UInt64 × Option ℕ}

theorem best_scanCall {calls : List (CallEdge × ℕ)} (h : Best p f space skip floor calls best) (item : CallEdge × ℕ) :
    Best p f space skip floor (calls ++ [item]) (scanCall p f space skip best item) := by
  have hkeep : (∀ g, p.index.lookup item.1.callee = some g → skip g = false →
      bytesIn item.1.live space + f.totalOf g space ≤ best.1) →
      Best p f space skip floor (calls ++ [item]) best := by
    intro hle
    refine ⟨h.floor_le, fun item' hmem => ?_, ?_⟩
    · rcases List.mem_append.mp hmem with hold | hnew
      · exact h.call_le item' hold
      · rwa [List.mem_singleton.mp hnew]
    · rcases h.attained with hself | ⟨item', hmem, hrest⟩
      · exact Or.inl hself
      · exact Or.inr ⟨item', mem_append_left _ hmem, hrest⟩
  cases hg : p.index.lookup item.1.callee with
  | none =>
    simp only [scanCall, hg]
    apply hkeep
    simp [hg]
  | some g =>
    simp only [scanCall, hg]
    split
    · rename_i hskip
      apply hkeep
      rintro g' hg' hno
      obtain rfl : g = g' := by simpa [hg] using hg'
      simp [hskip] at hno
    · rename_i hskip
      split
      · rename_i hlt
        refine ⟨UInt64.le_trans h.floor_le (UInt64.le_of_lt hlt), fun item' hmem g' hg' hno => ?_,
          Or.inr ⟨item, by simp, g, hg, by simpa using hskip, rfl⟩⟩
        rcases List.mem_append.mp hmem with hold | hnew
        · exact UInt64.le_trans (h.call_le item' hold g' hg' hno) (UInt64.le_of_lt hlt)
        · obtain rfl := List.mem_singleton.mp hnew
          obtain rfl : g = g' := by simpa [hg] using hg'
          exact UInt64.le_refl _
      · rename_i hlt
        apply hkeep
        rintro g' hg' _
        obtain rfl : g = g' := by simpa [hg] using hg'
        exact UInt64.not_lt.mp hlt

theorem best_foldl {seen : List (CallEdge × ℕ)}
    (h : Best p f space skip floor seen best) (calls : List (CallEdge × ℕ)) :
    Best p f space skip floor (seen ++ calls) (calls.foldl (scanCall p f space skip) best) := by
  induction calls generalizing seen best with
  | nil => simpa using h
  | cons item calls ih => simpa using ih (best_scanCall h item)

theorem scanCalls_best (p : Program) (f : Fold) (n : ℕ) (space : String) (skip : ℕ → Bool) :
    Best p f space skip (own p n space) (p.node n).calls.zipIdx (scanCalls p f n space skip) := by
  have h : Best p f space skip (own p n space) [] (own p n space, none) := ⟨UInt64.le_refl _, by simp, Or.inl rfl⟩
  exact best_foldl h (p.node n).calls.zipIdx

structure Totals (p : Program) (rank : ℕ → ℕ) (f : Fold) (done : ℕ → String → Prop) : Prop where
  own_le : ∀ n space, done n space → own p n space ≤ f.totalOf n space
  closed : ∀ n space g held, done n space → Calls p space n g held → rank g < rank n → done g space
  call_le : ∀ n space g held, done n space → Calls p space n g held → rank g < rank n →
    held + f.totalOf g space ≤ f.totalOf n space
  attained : ∀ n space, done n space → f.totalOf n space = own p n space ∨
    ∃ g held, Calls p space n g held ∧ rank g < rank n ∧ f.totalOf n space = held + f.totalOf g space
  peak : ∀ n space ei, f.peakEdge n space = some ei → ∃ call g, (p.node n).calls[ei]? = some call ∧
    p.index.lookup call.callee = some g ∧ rank g < rank n

theorem totalOf_settle (p : Program) (f : Fold) (n : ℕ) (space : String) (skip : ℕ → Bool) (m : ℕ) (s : String) :
    (settle p f n space skip).totalOf m s =
      if m = n ∧ s = space then (scanCalls p f n space skip).1 else f.totalOf m s := by
  simp only [totalOf, settle, setAt]
  split <;> rfl

theorem settle_totals (h : Totals p rank f done) (hnew : ¬done n space)
    (hskip : ∀ g ∈ p.succ n, skip g = false ↔ rank g < rank n)
    (hdone : ∀ g ∈ p.succ n, rank g < rank n → done g space) :
    Totals p rank (settle p f n space skip) fun m s => done m s ∨ m = n ∧ s = space := by
  have hbest := scanCalls_best p f n space skip
  have hself : (settle p f n space skip).totalOf n space = (scanCalls p f n space skip).1 := by
    simp [totalOf_settle]
  have hold : ∀ m s, done m s → (settle p f n space skip).totalOf m s = f.totalOf m s := by
    intro m s hm
    rw [totalOf_settle, if_neg]
    rintro ⟨rfl, rfl⟩
    exact hnew hm
  constructor
  · rintro m s (hm | ⟨rfl, rfl⟩)
    · rw [hold m s hm]
      exact h.own_le m s hm
    · rw [hself]
      exact hbest.floor_le
  · rintro m s g held (hm | ⟨rfl, rfl⟩) hc hlt
    · exact Or.inl (h.closed m s g held hm hc hlt)
    · exact Or.inl (hdone g hc.mem_succ hlt)
  · rintro m s g held (hm | ⟨rfl, rfl⟩) hc hlt
    · rw [hold m s hm, hold g s (h.closed m s g held hm hc hlt)]
      exact h.call_le m s g held hm hc hlt
    rw [hself, hold g s (hdone g hc.mem_succ hlt)]
    have hno := (hskip g hc.mem_succ).mpr hlt
    obtain ⟨call, hmem, hg, rfl⟩ := hc
    obtain ⟨i, hi⟩ := mem_iff_getElem?.mp hmem
    exact hbest.call_le (call, i) (mk_mem_zipIdx_iff_getElem?.mpr hi) g hg hno
  · rintro m s (hm | ⟨rfl, rfl⟩)
    · rw [hold m s hm]
      rcases h.attained m s hm with hown | ⟨g, held, hc, hlt, ht⟩
      · exact Or.inl hown
      · exact Or.inr ⟨g, held, hc, hlt, by rw [ht, hold g s (h.closed m s g held hm hc hlt)]⟩
    · rw [hself]
      rcases hbest.attained with hown | ⟨item, hmem, g, hg, hno, hval⟩
      · exact Or.inl (by rw [hown])
      have hc : Calls p s m g (bytesIn item.1.live s) := ⟨item.1, fst_mem_of_mem_zipIdx hmem, hg, rfl⟩
      have hlt := (hskip g hc.mem_succ).mp hno
      exact Or.inr ⟨g, _, hc, hlt, by rw [hval, hold g s (hdone g hc.mem_succ hlt)]⟩
  · intro m s ei hei
    rcases hbest.attained with hown | ⟨item, hmem, g, hg, hno, hval⟩
    · exact h.peak m s ei (by simpa [settle, hown] using hei)
    by_cases hms : m = n ∧ s = space
    · obtain ⟨rfl, rfl⟩ := hms
      obtain rfl : item.2 = ei := by simpa [settle, hval, setAt] using hei
      have hc : Calls p s m g (bytesIn item.1.live s) := ⟨item.1, fst_mem_of_mem_zipIdx hmem, hg, rfl⟩
      exact ⟨item.1, g, mk_mem_zipIdx_iff_getElem?.mp hmem, hg, (hskip g hc.mem_succ).mp hno⟩
    · exact h.peak m s ei (by simpa [settle, hval, setAt, hms] using hei)

end Vx.Capacity.Fold
