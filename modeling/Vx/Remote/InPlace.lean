import Vx.Remote.PlanSound

namespace Vx.Remote

open List
open Function (update update_of_ne update_self)
open Lib.Grouping

structure Fields where
  bytes : ℕ
  span : ℤ
  start : ℕ
  place : ℕ
  packed : Bool
deriving DecidableEq, Repr

def startFields (i : ℕ) : Option Interval → Fields
  | none => ⟨0, -1, 0, 0, false⟩
  | some (start, bytes) => ⟨bytes, i, start, 0, false⟩

def rootFrom (views : ℕ → Fields) : ℕ → ℕ → ℕ
  | 0, i => i
  | fuel + 1, i => if (views i).span = i then i else rootFrom views fuel (views i).span.toNat

def viewCopyRoot (views : ℕ → Fields) (i : ℕ) : ℕ := rootFrom views i i

def setSpan (views : ℕ → Fields) (i : ℕ) (span : ℤ) : ℕ → Fields := update views i { views i with span }

def joinStep (i : ℕ) (views : ℕ → Fields) (j : ℕ) : ℕ → Fields :=
  if (views j).span < 0 ∨ (views i).start ≥ (views j).start + (views j).bytes ∨
      (views j).start ≥ (views i).start + (views i).bytes then views
  else
    let a := viewCopyRoot views i
    let b := viewCopyRoot views j
    if a < b then setSpan views b a else if b < a then setSpan views a b else views

def joinRow (views : ℕ → Fields) (i : ℕ) : ℕ → Fields :=
  if (views i).span < 0 then views else (List.range i).foldl (joinStep i) views

def setRoot (views : ℕ → Fields) (i : ℕ) : ℕ → Fields :=
  if (views i).span ≥ 0 then update views i { views i with place := viewCopyRoot views i } else views

structure SpanState where
  views : ℕ → Fields
  spans : ℕ → CopySpan
  num : ℕ

def spanStep (s : SpanState) (i : ℕ) : SpanState :=
  let v := s.views i
  if v.span < 0 then s
  else if v.place = i then
    { views := setSpan s.views i s.num, spans := update s.spans s.num ⟨v.start, v.bytes, none⟩, num := s.num + 1 }
  else
    let span := (s.views v.place).span
    let old := s.spans span.toNat
    let stop := if v.start + v.bytes > old.start + old.bytes then v.start + v.bytes else old.start + old.bytes
    let start := if v.start < old.start then v.start else old.start
    { s with
      views := setSpan s.views i span
      spans := update s.spans span.toNat { old with start, bytes := stop - start } }

def placeStep (spans : ℕ → CopySpan) (views : ℕ → Fields) (i : ℕ) : ℕ → Fields :=
  let v := views i
  update views i { v with
    place := if v.span < 0 then 0 else v.start - (spans v.span.toNat).start
    packed := false }

def packStep (vs : List View) (s : SpanState) (n : ℕ) : SpanState :=
  let whole := { s with spans := update s.spans n { s.spans n with view := none } }
  match (List.range vs.length).filter fun i => (s.views i).span = n with
  | [only] =>
    match vs[only]? with
    | none => whole
    | some v =>
      match packable v (s.views only).bytes with
      | none => whole
      | some dense => { s with
          views := update s.views only { s.views only with packed := true }
          spans := update s.spans n { s.spans n with bytes := dense, view := some only } }
  | _ => whole

def planLoops (views : ℕ → Option Interval) (vs : List View) : SpanState :=
  let each := List.range vs.length
  let joined := each.foldl joinRow fun i => startFields i (views i)
  let rooted := each.foldl setRoot joined
  let given := each.foldl spanStep ⟨rooted, fun _ => ⟨0, 0, none⟩, 0⟩
  let placed := { given with views := each.foldl (placeStep given.spans) given.views }
  (List.range placed.num).foldl (packStep vs) placed

def planInPlace (vs : List View) : Except Stop SpanState :=
  match measureAll 0 vs with
  | .error stop => .error stop
  | .ok ms => .ok (planLoops (fun i => (ms[i]?).join) vs)

section
variable {views : ℕ → Option Interval} {link : ℕ → ℕ} {place : ℕ → ℕ}

def fieldsOf (views : ℕ → Option Interval) (span : ℕ → ℤ) (place : ℕ → ℕ) (i : ℕ) : Fields :=
  match views i with
  | none => ⟨0, -1, 0, 0, false⟩
  | some (start, bytes) => ⟨bytes, span i, start, place i, false⟩

variable {span : ℕ → ℤ} {i : ℕ}

theorem fieldsOf_none (hi : views i = none) : fieldsOf views span place i = ⟨0, -1, 0, 0, false⟩ := by
  rw [fieldsOf, hi]

theorem fieldsOf_some {m : Interval} (hi : views i = some m) :
    fieldsOf views span place i = ⟨m.2, span i, m.1, place i, false⟩ := by
  rw [fieldsOf, hi]

theorem fieldsOf_congr {span' : ℕ → ℤ} {place' : ℕ → ℕ}
    (hspan : ∀ i, views i ≠ none → span i = span' i ∧ place i = place' i) :
    fieldsOf views span place = fieldsOf views span' place' := by
  funext i
  cases hi : views i with
  | none => rw [fieldsOf_none hi, fieldsOf_none hi]
  | some m =>
    obtain ⟨hs, hp⟩ := hspan i (by rw [hi]; exact Option.some_ne_none m)
    rw [fieldsOf_some hi, fieldsOf_some hi, hs, hp]

theorem setSpan_fieldsOf (hi : views i ≠ none) (n : ℤ) :
    setSpan (fieldsOf views span place) i n = fieldsOf views (update span i n) place := by
  obtain ⟨m, hm⟩ := Option.ne_none_iff_exists'.mp hi
  funext k
  by_cases hk : k = i
  · subst hk
    rw [setSpan, update_self, fieldsOf_some hm, fieldsOf_some hm, update_self]
  rw [setSpan, update_of_ne hk]
  cases hv : views k with
  | none => rw [fieldsOf_none hv, fieldsOf_none hv]
  | some v => rw [fieldsOf_some hv, fieldsOf_some hv, update_of_ne hk]

def links (link : ℕ → ℕ) (i : ℕ) : ℤ := link i

theorem links_update (link : ℕ → ℕ) (i n : ℕ) : update (links link) i (n : ℤ) = links (update link i n) := by
  funext k
  by_cases hk : k = i
  · subst hk
    rw [update_self, links, update_self]
  · rw [update_of_ne hk, links, links, update_of_ne hk]

def Closed (views : ℕ → Option Interval) (link : ℕ → ℕ) : Prop := ∀ i, views i ≠ none → views (link i) ≠ none

variable (h : Closed views link)
include h

theorem rootFrom_eq (hi : views i ≠ none) (fuel : ℕ) :
    rootFrom (fieldsOf views (links link) place) fuel i = climb link fuel i ∧ views (climb link fuel i) ≠ none := by
  induction fuel generalizing i with
  | zero => exact ⟨rfl, hi⟩
  | succ fuel ih =>
    obtain ⟨m, hm⟩ := Option.ne_none_iff_exists'.mp hi
    have hspan : (fieldsOf views (links link) place i).span = link i := by rw [fieldsOf_some hm]; rfl
    rw [rootFrom, climb, hspan, Int.toNat_natCast]
    simp only [Int.ofNat_inj]
    split_ifs with hfix
    · exact ⟨rfl, hi⟩
    · exact ih (h i hi)

theorem viewCopyRoot_eq (hi : views i ≠ none) :
    viewCopyRoot (fieldsOf views (links link) place) i = root link i := (rootFrom_eq h hi i).1

theorem Closed.root (hi : views i ≠ none) : views (root link i) ≠ none := by
  let place : ℕ → ℕ := fun _ => 0
  have hroot : rootFrom (fieldsOf views (links link) place) i i = _ ∧ _ := rootFrom_eq h hi i
  exact hroot.2

theorem Closed.update {a b : ℕ} (ha : views a ≠ none) : Closed views (update link b a) := by
  intro i hi
  by_cases hib : i = b
  · subst hib
    rwa [update_self]
  · rw [update_of_ne hib]
    exact h i hi

theorem joinStep_eq (hi : views i ≠ none) (j : ℕ) :
    joinStep i (fieldsOf views (links link) place) j = fieldsOf views (links (joinViews views link i j)) place ∧
      Closed views (joinViews views link i j) := by
  obtain ⟨a, ha⟩ := Option.ne_none_iff_exists'.mp hi
  cases hj : views j with
  | none =>
    rw [joinStep, if_pos (.inl (by rw [fieldsOf_none hj]; decide))]
    have hsame : joinViews views link i j = link := by simp only [joinViews, ha, hj]
    rw [hsame]
    exact ⟨rfl, h⟩
  | some b =>
    have hj' : views j ≠ none := by rw [hj]; exact Option.some_ne_none b
    have hspan : ¬ links link j < 0 := by simp [links]
    simp only [joinStep, joinViews, ha, hj, fieldsOf_some ha, fieldsOf_some hj, hspan, false_or, viewCopyRoot_eq h hi,
      viewCopyRoot_eq h hj']
    by_cases hapart : a.1 ≥ b.1 + b.2 ∨ b.1 ≥ a.1 + a.2
    · rw [if_pos hapart, if_pos hapart]
      exact ⟨rfl, h⟩
    rw [if_neg hapart, if_neg hapart, join]
    split_ifs with hab hba
    · rw [setSpan_fieldsOf (h.root hj'), links_update]
      exact ⟨rfl, h.update (h.root hi)⟩
    · rw [setSpan_fieldsOf (h.root hi), links_update]
      exact ⟨rfl, h.update (h.root hj')⟩
    · exact ⟨rfl, h⟩

theorem joinRow_eq (i : ℕ) : joinRow (fieldsOf views (links link) place) i =
        fieldsOf views (links ((List.range i).foldl (fun link j => joinViews views link i j) link)) place ∧
      Closed views ((List.range i).foldl (fun link j => joinViews views link i j) link) := by
  cases hi : views i with
  | none =>
    have hsame : ∀ l : List ℕ, l.foldl (fun link j => joinViews views link i j) link = link := by
      intro l
      induction l with
      | nil => rfl
      | cons j l ih => rw [foldl_cons, joinViews, hi]; exact ih
    rw [joinRow, fieldsOf_none hi, if_pos (by decide), hsame]
    exact ⟨rfl, h⟩
  | some m =>
    have hi' : views i ≠ none := by rw [hi]; exact Option.some_ne_none m
    have hfold : ∀ (l : List ℕ) {link : ℕ → ℕ}, Closed views link →
        l.foldl (joinStep i) (fieldsOf views (links link) place) =
            fieldsOf views (links (l.foldl (fun link j => joinViews views link i j) link)) place ∧
          Closed views (l.foldl (fun link j => joinViews views link i j) link) := by
      intro l
      induction l with
      | nil => exact fun hclosed => ⟨rfl, hclosed⟩
      | cons j l ih =>
        intro link hclosed
        obtain ⟨hstep, hclosed'⟩ := joinStep_eq hclosed hi' j
        rw [foldl_cons, foldl_cons, hstep]
        exact ih hclosed'
    rw [joinRow, fieldsOf_some hi, if_neg (by simp [links])]
    exact hfold (List.range i) h

omit h in
theorem joinAll_eq (views : ℕ → Option Interval) (n : ℕ) :
    (List.range n).foldl joinRow (fun i => startFields i (views i)) =
        fieldsOf views (links (groups views n)) (fun _ => 0) ∧ Closed views (groups views n) := by
  have hstart : (fun i => startFields i (views i)) = fieldsOf views (links fun i => i) fun _ => 0 := by
    funext i
    cases hi : views i with
    | none => rw [fieldsOf_none hi]; rfl
    | some m => rw [fieldsOf_some hi]; rfl
  unfold groups
  induction n with
  | zero => exact ⟨rfl, fun _ hi => hi⟩
  | succ n ih =>
    rw [range_succ, foldl_append, foldl_append, ih.1, foldl_cons, foldl_cons, foldl_nil, foldl_nil]
    exact joinRow_eq ih.2 n

theorem setRoots_eq (n : ℕ) : (List.range n).foldl setRoot (fieldsOf views (links link) fun _ => 0) =
      fieldsOf views (links link) fun i => if i < n then root link i else 0 := by
  induction n with
  | zero => rfl
  | succ n ih =>
    rw [range_succ, foldl_append, ih, foldl_cons, foldl_nil, setRoot]
    cases hn : views n with
    | none =>
      rw [fieldsOf_none hn, if_neg (by decide)]
      refine fieldsOf_congr fun i hi => ⟨rfl, ?_⟩
      have : i ≠ n := fun hin => hi (hin ▸ hn)
      have hiff : i < n ↔ i < n + 1 := by omega
      simp only [hiff]
    | some m =>
      have hn' : views n ≠ none := by rw [hn]; exact Option.some_ne_none m
      rw [viewCopyRoot_eq h hn', if_pos (by rw [fieldsOf_some hn]; simp [links])]
      funext k
      by_cases hk : k = n
      · subst hk
        rw [update_self, fieldsOf_some hn, fieldsOf_some hn, if_pos (Nat.lt_succ_self _)]
      have hiff : k < n ↔ k < n + 1 := by omega
      rw [update_of_ne hk]
      cases hv : views k with
      | none => rw [fieldsOf_none hv, fieldsOf_none hv]
      | some v => rw [fieldsOf_some hv, fieldsOf_some hv]; simp only [hiff]

omit h

def wholeSpan (span : Interval) : CopySpan := ⟨span.1, span.2, none⟩

def spansThenLinks (m : ℕ) (of : ℕ → Option ℕ) (link : ℕ → ℕ) (i : ℕ) : ℤ :=
  if i < m then ((of i).getD 0 : ℕ) else link i

theorem spansThenLinks_nonneg (m : ℕ) (of : ℕ → Option ℕ) (link : ℕ → ℕ) (i : ℕ) : 0 ≤ spansThenLinks m of link i := by
  unfold spansThenLinks
  split <;> simp

theorem spansThenLinks_update {m : ℕ} {of : ℕ → Option ℕ} {link : ℕ → ℕ} {s : ℕ} :
    update (spansThenLinks m of link) m (s : ℤ) i = spansThenLinks (m + 1) (update of m (some s)) link i := by
  by_cases hi : i = m
  · subst hi
    simp [spansThenLinks]
  · have hiff : i < m ↔ i < m + 1 := by omega
    rw [update_of_ne hi, spansThenLinks, spansThenLinks, update_of_ne hi]
    simp only [hiff]

theorem spanLoop_eq (h : Closed views link) (hforest : Forest link) {m : ℕ} (hplace : ∀ i < m, place i = root link i) :
    (List.range m).foldl spanStep ⟨fieldsOf views (links link) place, fun _ => ⟨0, 0, none⟩, 0⟩ =
      let given := (List.range m).foldl (giveSpan views link) ⟨fun _ => (0, 0), 0, fun _ => none⟩
      ⟨fieldsOf views (spansThenLinks m given.of link) place, fun s => wholeSpan (given.spans s), given.num⟩ := by
  induction m with
  | zero => rfl
  | succ m ih =>
    simp only [range_succ, foldl_append, foldl_cons, foldl_nil]
    rw [ih fun i hi => hplace i (by omega)]
    generalize (List.range m).foldl (giveSpan views link) ⟨fun _ => (0, 0), 0, fun _ => none⟩ = given
    cases hm : views m with
    | none =>
      rw [spanStep, giveSpan, hm]
      simp only [fieldsOf_none hm, show ((-1 : ℤ) < 0) from by decide, if_true]
      have hfields : fieldsOf views (spansThenLinks m given.of link) place =
          fieldsOf views (spansThenLinks (m + 1) given.of link) place := by
        refine fieldsOf_congr fun i hi => ⟨?_, rfl⟩
        have hne : i ≠ m := fun him => hi (him ▸ hm)
        have hiff : i < m ↔ i < m + 1 := by omega
        simp only [spansThenLinks, hiff]
      rw [hfields]
    | some v =>
      have hm' : views m ≠ none := by rw [hm]; exact Option.some_ne_none v
      have hnonneg := spansThenLinks_nonneg m given.of link m
      have hupdate : ∀ s : ℕ, update (spansThenLinks m given.of link) m (s : ℤ) =
          spansThenLinks (m + 1) (update given.of m (some s)) link := fun s => funext fun i => spansThenLinks_update
      rw [spanStep, giveSpan, hm]
      simp only [fieldsOf_some hm, not_lt.mpr hnonneg, if_false, hplace m (Nat.lt_succ_self m)]
      by_cases hroot : root link m = m
      · rw [if_pos hroot, if_pos hroot, setSpan_fieldsOf hm', hupdate]
        congr 1
        exact (Function.comp_update wholeSpan given.spans given.num v).symm
      · have hlt : root link m < m := lt_of_le_of_ne (root_le hforest m) hroot
        obtain ⟨u, hu⟩ := Option.ne_none_iff_exists'.mp (h.root hm')
        have hspan : (fieldsOf views (spansThenLinks m given.of link) place (root link m)).span =
            ((given.of (root link m)).getD 0 : ℕ) := by
          rw [fieldsOf_some hu, spansThenLinks, if_pos hlt]
        rw [if_neg hroot, if_neg hroot, hspan, setSpan_fieldsOf hm', hupdate]
        congr 1
        exact (Function.comp_update wholeSpan given.spans _ (widen _ v)).symm

theorem placeLoop_eq (hspan : ∀ i, 0 ≤ span i) (spans : ℕ → CopySpan) (n : ℕ) :
    (List.range n).foldl (placeStep spans) (fieldsOf views span place) = fieldsOf views span fun i =>
        if i < n then ((views i).map fun m => m.1 - (spans (span i).toNat).start).getD 0 else place i := by
  induction n with
  | zero => rfl
  | succ n ih =>
    rw [range_succ, foldl_append, ih, foldl_cons, foldl_nil, placeStep]
    funext k
    have hiff : k ≠ n → (k < n ↔ k < n + 1) := by omega
    by_cases hk : k = n
    · subst hk
      rw [update_self]
      cases hv : views k with
      | none => rw [fieldsOf_none hv, fieldsOf_none hv]; rfl
      | some v =>
        rw [fieldsOf_some hv, fieldsOf_some hv]
        simp [not_lt.mpr (hspan k), hv]
    · rw [update_of_ne hk]
      cases hv : views k with
      | none => rw [fieldsOf_none hv, fieldsOf_none hv]
      | some v => rw [fieldsOf_some hv, fieldsOf_some hv]; simp only [hiff hk]

end

section
variable {views : ℕ → Option Interval} {vs : List View} {given : Spans}

structure Placing (views : ℕ → Option Interval) (vs : List View) (given : Spans) (st : SpanState) : Prop where
  span : ∀ i < vs.length, ∀ s : ℕ, (st.views i).span = s ↔ given.of i = some s
  bytes : ∀ i m, views i = some m → (st.views i).bytes = m.2
  some_of : ∀ i s, given.of i = some s → ∃ m, views i = some m

theorem packStep_eq {st : SpanState} (h : Placing views vs given st) {n : ℕ}
    (hn : st.spans n = wholeSpan (given.spans n)) : packStep vs st n = { st with
      views := fun i => { st.views i with
        packed := (st.views i).packed || decide ((copySpan views vs given n).view = some i) }
      spans := update st.spans n (copySpan views vs given n) } := by
  have hfilter : ((List.range vs.length).filter fun i => (st.views i).span = n) =
      (List.range vs.length).filter fun i => given.of i = some n := by
    refine filter_congr fun i hi => ?_
    rw [decide_eq_decide]
    exact h.span i (List.mem_range.mp hi) n
  have hwhole : ∀ c : CopySpan, c = wholeSpan (given.spans n) →
      { st with spans := update st.spans n { st.spans n with view := none } } = { st with
        views := fun i => { st.views i with packed := (st.views i).packed || decide (c.view = some i) }
        spans := update st.spans n c } := by
    rintro c rfl
    rw [hn]
    simp [wholeSpan]
  unfold packStep
  simp only [hfilter]
  cases hmine : (List.range vs.length).filter fun i => given.of i = some n with
  | nil => exact hwhole _ (by simp [copySpan, hmine, wholeSpan])
  | cons only rest =>
    cases rest with
    | cons _ _ => exact hwhole _ (by simp [copySpan, hmine, wholeSpan])
    | nil =>
      have hmem : only ∈ (List.range vs.length).filter fun i => given.of i = some n := by rw [hmine]; simp
      have hof : given.of only = some n := by simpa using (List.mem_filter.mp hmem).2
      obtain ⟨m, hm⟩ := h.some_of only n hof
      simp only
      cases hv : vs[only]? with
      | none => exact hwhole _ (by simp [copySpan, hmine, hv, wholeSpan])
      | some v =>
        simp only [h.bytes only m hm]
        cases hpack : packable v m.2 with
        | none => exact hwhole _ (by simp [copySpan, hmine, hv, hm, hpack, wholeSpan])
        | some dense =>
          have hcopy : copySpan views vs given n = ⟨(given.spans n).1, dense, some only⟩ := by
            simp [copySpan, hmine, hv, hm, hpack]
          simp only [hcopy, hn, wholeSpan]
          congr 1
          funext i
          by_cases hi : i = only
          · subst hi
            simp [h.bytes i m hm]
          · rw [update_of_ne hi]
            have : some only ≠ some i := fun heq => hi (Option.some.inj heq).symm
            simp [this]

theorem packLoop_eq {st : SpanState} (h : Placing views vs given st) (hspans : ∀ s, st.spans s = wholeSpan (given.spans s))
    (n : ℕ) : (List.range n).foldl (packStep vs) st = { st with
      views := fun i => { st.views i with
        packed := (st.views i).packed || (List.range n).any fun s => decide ((copySpan views vs given s).view = some i) }
      spans := fun s => if s < n then copySpan views vs given s else st.spans s } := by
  induction n with
  | zero => simp
  | succ n ih =>
    have hplacing : Placing views vs given { st with
        views := fun i => { st.views i with
          packed := (st.views i).packed || (List.range n).any fun s => decide ((copySpan views vs given s).view = some i) }
        spans := fun s => if s < n then copySpan views vs given s else st.spans s } := ⟨h.span, h.bytes, h.some_of⟩
    rw [range_succ, foldl_append, ih, foldl_cons, foldl_nil, packStep_eq hplacing (by simp [hspans])]
    congr 1
    · funext i
      simp [Bool.or_assoc]
    funext s
    by_cases hs : s = n
    · subst hs
      rw [update_self, if_pos (Nat.lt_succ_self s)]
    · have hiff : s < n ↔ s < n + 1 := by omega
      rw [update_of_ne hs]
      simp only [hiff]

end

def SpanState.plan (st : SpanState) : Plan where
  starts i := (st.views i).start
  of i := if (st.views i).span < 0 then none else some (st.views i).span.toNat
  place i := (st.views i).place
  packed i := (st.views i).packed
  spans := (List.range st.num).map st.spans

theorem planLoops_eq {views : ℕ → Option Interval} {vs : List View} (hbeyond : ∀ i, vs.length ≤ i → views i = none) :
    let given := giveSpans views vs.length
    planLoops views vs = {
      views := fun i => { fieldsOf views (fun i => ((given.of i).getD 0 : ℕ))
          (fun i => ((views i).map fun m => m.1 - (given.spans ((given.of i).getD 0)).1).getD 0) i with
        packed := (List.range given.num).any fun s => decide ((copySpan views vs given s).view = some i) }
      spans := fun s => if s < given.num then copySpan views vs given s else wholeSpan (given.spans s)
      num := given.num } := by
  obtain ⟨hjoin, hclosed⟩ := joinAll_eq views vs.length
  have hforest := (groups_grouped views vs.length).1.forest
  have hok := giveSpans_ok views vs.length
  simp only [planLoops]
  rw [hjoin, setRoots_eq hclosed, spanLoop_eq hclosed hforest fun i hi => if_pos hi]
  rw [show (List.range vs.length).foldl (giveSpan views (groups views vs.length)) ⟨fun _ => (0, 0), 0, fun _ => none⟩ =
    giveSpans views vs.length from rfl]
  generalize giveSpans views vs.length = given at hok ⊢
  rw [placeLoop_eq (spansThenLinks_nonneg _ _ _)]
  have hfields : (fieldsOf views (spansThenLinks vs.length given.of (groups views vs.length)) fun i =>
      if i < vs.length then ((views i).map fun m => m.1 -
        (wholeSpan (given.spans (spansThenLinks vs.length given.of (groups views vs.length) i).toNat)).start).getD 0
      else if i < vs.length then root (groups views vs.length) i else 0) =
      fieldsOf views (fun i => ((given.of i).getD 0 : ℕ))
        fun i => ((views i).map fun m => m.1 - (given.spans ((given.of i).getD 0)).1).getD 0 := by
    refine fieldsOf_congr fun i hi => ?_
    have hlt : i < vs.length := by
      by_contra hle
      exact hi (hbeyond i (by omega))
    simp only [spansThenLinks, hlt, if_true, Int.toNat_natCast, wholeSpan, and_self]
  rw [hfields]
  have hplacing : Placing views vs given ⟨fieldsOf views (fun i => ((given.of i).getD 0 : ℕ))
      (fun i => ((views i).map fun m => m.1 - (given.spans ((given.of i).getD 0)).1).getD 0),
      fun s => wholeSpan (given.spans s), given.num⟩ := by
    refine ⟨fun i hi s => ?_, fun i m hm => ?_, fun i s hs => (hok.some_of hs).2⟩
    · cases hv : views i with
      | none =>
        have hof : given.of i = none := (hok.unplaced i).mpr (.inr hv)
        simp only [fieldsOf_none hv, hof]
        simp
      | some m =>
        obtain ⟨t, ht⟩ := Option.ne_none_iff_exists'.mp fun hof => by
          rcases (hok.unplaced i).mp hof with hle | hnone
          · omega
          · rw [hv] at hnone
            cases hnone
        simp only [fieldsOf_some hv, ht]
        simp
    · simp only [fieldsOf_some hm]
  rw [packLoop_eq hplacing fun s => rfl]
  congr 1
  funext i
  cases hv : views i with
  | none => simp [fieldsOf_none hv]
  | some m => simp [fieldsOf_some hv]

end Vx.Remote
