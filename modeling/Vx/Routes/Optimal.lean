import Vx.Routes.Search

namespace Vx.Routes

open List Option
open Interface (MemorySpace)
open Lib

structure Link where
  source : MemorySpace
  target : MemorySpace
  weight : Word 32

def passed (s : MemorySpace) (links : List Link) : List MemorySpace := s :: links.map Link.target

def totalWeight (links : List Link) : ℕ := (links.map fun link => link.weight.val).sum

namespace TransferCostGraph

def Declared (g : TransferCostGraph) (link : Link) : Prop := (link.target, link.weight) ∈ g.neighbors link.source

inductive Route (g : TransferCostGraph) (s : MemorySpace) : List Link → MemorySpace → Prop
  | nil : Route g s [] s
  | snoc {links : List Link} {link : Link} (route : Route g s links link.source) (declared : g.Declared link) :
      Route g s (links ++ [link]) link.target

def price (g : TransferCostGraph) (link : Link) : Option (Word 64) := g.routeCost.lookup (link.source, link.target)

def Priced (g : TransferCostGraph) (links : List Link) : Prop := ∀ link ∈ links, (g.price link).isSome = true

def totalAttos (g : TransferCostGraph) (links : List Link) : ℕ :=
  (links.map fun link => ((g.price link).getD 0).val).sum

def TotalsFit (g : TransferCostGraph) : Prop :=
  ∀ s links t, g.Route s links t → (passed s links).Nodup → g.totalAttos links < 2 ^ 64 ∧ totalWeight links < 2 ^ 32

section
variable {g : TransferCostGraph} {s t : MemorySpace} {links : List Link}

theorem Route.upTo (h : g.Route s links t) {w : MemorySpace} (hw : w ∈ passed s links) :
    ∃ links', g.Route s links' w ∧ links' <+: links := by
  induction h with
  | nil =>
    rw [List.mem_singleton.mp hw]
    exact ⟨[], .nil, nil_prefix⟩
  | @snoc links link route declared ih =>
    simp only [passed, map_append, map_cons, map_nil, ← cons_append, mem_append, List.mem_singleton] at hw
    rcases hw with hw | rfl
    · obtain ⟨links', hroute, hpre⟩ := ih hw
      exact ⟨links', hroute, hpre.trans (prefix_append ..)⟩
    · exact ⟨_, route.snoc declared, prefix_rfl⟩

theorem passed_append (links : List Link) (link : Link) :
    passed s (links ++ [link]) = passed s links ++ [link.target] := by
  simp [passed]

theorem Route.simple (h : g.Route s links t) :
    ∃ links', g.Route s links' t ∧ (passed s links').Nodup ∧ links'.Sublist links := by
  induction h with
  | nil => exact ⟨[], .nil, by simp [passed], List.Sublist.refl _⟩
  | @snoc links link route declared ih =>
    obtain ⟨links', hroute, hnodup, hsub⟩ := ih
    by_cases hmem : link.target ∈ passed s links'
    · obtain ⟨links'', hroute', hpre⟩ := hroute.upTo hmem
      refine ⟨links'', hroute', ?_, hpre.sublist.trans (hsub.trans (sublist_append_left ..))⟩
      exact hnodup.sublist ((hpre.sublist.map _).cons_cons _)
    · refine ⟨links' ++ [link], hroute.snoc declared, ?_, hsub.append (List.Sublist.refl _)⟩
      rw [passed_append]
      exact List.nodup_append.mpr ⟨hnodup, by simp, by rintro x hx y hy rfl; exact hmem (by simp_all)⟩

theorem totalWeight_le_of_sublist {links' : List Link} (h : links'.Sublist links) :
    totalWeight links' ≤ totalWeight links :=
  (h.map _).sum_le_sum (by simp)

theorem totalAttos_le_of_sublist {links' : List Link} (h : links'.Sublist links) :
    g.totalAttos links' ≤ g.totalAttos links :=
  (h.map _).sum_le_sum (by simp)

theorem mem_spaces_of_declared {link : Link} (h : g.Declared link) :
    link.source ∈ g.spaces ∧ link.target ∈ g.spaces := by
  unfold Declared neighbors at h
  cases hlookup : g.transferEdges.lookup link.source with
  | none => simp [hlookup] at h
  | some ns =>
    rw [hlookup] at h
    have hentry := AList.mem_lookup_iff.mp hlookup
    simp only [spaces, mem_dedup, mem_append, mem_flatMap]
    exact ⟨.inr ⟨_, hentry, by simp⟩, .inr ⟨_, hentry, mem_cons_of_mem _ (List.mem_map_of_mem h)⟩⟩

theorem Route.mem_spaces (h : g.Route s links t) (hne : s ≠ t) : s ∈ g.spaces ∧ t ∈ g.spaces := by
  induction h with
  | nil => exact absurd rfl hne
  | @snoc links link route declared ih =>
    obtain ⟨hsource, htarget⟩ := mem_spaces_of_declared declared
    by_cases hs : s = link.source
    · exact ⟨hs ▸ hsource, htarget⟩
    · exact ⟨(ih hs).1, htarget⟩

variable (g : TransferCostGraph) (pricedOnly : Bool)

def Admitted (links : List Link) : Prop := pricedOnly = true → g.Priced links

def label (link : Link) : Word 64 × Word 32 := (if pricedOnly then (g.price link).getD 0 else 0, link.weight)

def total (links : List Link) : ℕ ×ₗ ℕ := toLex (if pricedOnly then g.totalAttos links else 0, totalWeight links)

def keyOf (links : List Link) : Key :=
  links.foldl (fun key link => extendKey key (g.label pricedOnly link)) (toLex (0, 0))

variable {g pricedOnly}

theorem mem_network_edges {u v : MemorySpace} {l : Word 64 × Word 32} : (v, l) ∈ (g.network pricedOnly).edges u ↔
      ∃ link, g.Declared link ∧ link.source = u ∧ link.target = v ∧ g.Admitted pricedOnly [link] ∧
        g.label pricedOnly link = l := by
  simp only [network, mem_filterMap]
  constructor
  · rintro ⟨⟨next, w⟩, hmem, hedge⟩
    split at hedge
    next => cases hedge
    next hpriced =>
      cases hedge
      refine ⟨⟨u, next, w⟩, hmem, rfl, rfl, fun hp => ?_, rfl⟩
      intro link hlink
      rw [List.mem_singleton.mp hlink]
      simpa [price, hp, isSome_iff_ne_none] using hpriced
  · rintro ⟨link, hdeclared, rfl, rfl, hadmitted, rfl⟩
    refine ⟨(link.target, link.weight), hdeclared, ?_⟩
    have hpriced : ¬ (pricedOnly && (g.routeCost.lookup (link.source, link.target)).isNone) = true := by
      intro h
      obtain ⟨hp, hnone⟩ := Bool.and_eq_true_iff.mp h
      have := hadmitted hp link (by simp)
      simp_all [price]
    simp only [hpriced]
    rfl

theorem admitted_append {link : Link} :
    g.Admitted pricedOnly (links ++ [link]) ↔ g.Admitted pricedOnly links ∧ g.Admitted pricedOnly [link] := by
  simp only [Admitted, Priced, forall_mem_append]
  exact imp_and

theorem keyOf_append (link : Link) :
    g.keyOf pricedOnly (links ++ [link]) = extendKey (g.keyOf pricedOnly links) (g.label pricedOnly link) := by
  simp [keyOf]

theorem Route.walk (h : g.Route s links t) (hadmitted : g.Admitted pricedOnly links) :
    Dijkstra.Walk (g.network pricedOnly) s t (g.keyOf pricedOnly links) (passed s links) := by
  induction h with
  | nil => exact .nil
  | @snoc links link route declared ih =>
    obtain ⟨hlinks, hlink⟩ := admitted_append.mp hadmitted
    rw [keyOf_append, passed_append]
    exact (ih hlinks).snoc (mem_network_edges.mpr ⟨link, declared, rfl, rfl, hlink, rfl⟩)

theorem exists_route_of_walk {k : Key} {p : List MemorySpace} (h : Dijkstra.Walk (g.network pricedOnly) s t k p) :
    ∃ links, g.Route s links t ∧ g.Admitted pricedOnly links ∧ passed s links = p ∧ g.keyOf pricedOnly links = k := by
  induction h with
  | nil => exact ⟨[], .nil, fun _ => by simp [Priced], rfl, rfl⟩
  | snoc _ hedge ih =>
    obtain ⟨links, hroute, hadmitted, rfl, rfl⟩ := ih
    obtain ⟨link, hdeclared, rfl, rfl, hlink, rfl⟩ := mem_network_edges.mp hedge
    exact ⟨links ++ [link], hroute.snoc hdeclared, admitted_append.mpr ⟨hadmitted, hlink⟩, passed_append ..,
      keyOf_append _⟩

theorem totalWeight_append (link : Link) : totalWeight (links ++ [link]) = totalWeight links + link.weight.val := by
  simp [totalWeight]

theorem totalAttos_append (link : Link) :
    g.totalAttos (links ++ [link]) = g.totalAttos links + ((g.price link).getD 0).val := by
  simp [totalAttos]

def Measures (g : TransferCostGraph) (pricedOnly : Bool) (links : List Link) : Prop :=
  (ofLex (g.keyOf pricedOnly links)).1.val = (ofLex (g.total pricedOnly links)).1 ∧
    (ofLex (g.keyOf pricedOnly links)).2.val = (ofLex (g.total pricedOnly links)).2

theorem Route.exactWalk (hfit : g.TotalsFit) (h : g.Route s links t) (hadmitted : g.Admitted pricedOnly links)
    (hsimple : (passed s links).Nodup) :
    Dijkstra.ExactWalk (g.network pricedOnly) s t (g.keyOf pricedOnly links) (passed s links) ∧
      g.Measures pricedOnly links := by
  induction h with
  | nil => exact ⟨.nil, by cases pricedOnly <;> rfl, rfl⟩
  | @snoc links link route declared ih =>
    obtain ⟨hlinks, hlink⟩ := admitted_append.mp hadmitted
    have hfits := hfit s _ _ (route.snoc declared) hsimple
    rw [passed_append] at hsimple
    obtain ⟨hwalk, hattos, hweight⟩ := ih hlinks (List.nodup_append.mp hsimple).1
    rw [totalAttos_append, totalWeight_append] at hfits
    have hexact : ExactKey (g.keyOf pricedOnly links) (g.label pricedOnly link) := by
      refine ⟨?_, ?_⟩
      · rw [hattos]
        cases pricedOnly with
        | false => simp [total, label]
        | true => exact hfits.1
      · rw [hweight]
        exact hfits.2
    refine ⟨?_, ?_, ?_⟩
    · rw [keyOf_append, passed_append]
      exact hwalk.snoc (mem_network_edges.mpr ⟨link, declared, rfl, rfl, hlink, rfl⟩) hexact
    · rw [keyOf_append, extendKey, ofLex_toLex, val_saturatingAdd hexact.1, hattos]
      cases pricedOnly with
      | false => simp [total, label]
      | true => simp [total, label, totalAttos_append]
    · rw [keyOf_append, extendKey, ofLex_toLex, val_saturatingAdd hexact.2, hweight]
      simp [total, label, totalWeight_append]

theorem total_le_of_keyOf_le {links' : List Link} (h : g.Measures pricedOnly links)
    (h' : g.Measures pricedOnly links') (hle : g.keyOf pricedOnly links ≤ g.keyOf pricedOnly links') :
    g.total pricedOnly links ≤ g.total pricedOnly links' := by
  rw [Prod.Lex.le_iff] at hle ⊢
  rw [← h.1, ← h.2, ← h'.1, ← h'.2]
  exact hle.imp Fin.lt_def.mp (fun hle => ⟨congrArg Fin.val hle.1, Fin.le_def.mp hle.2⟩)

theorem total_le_of_sublist {links' : List Link} (h : links'.Sublist links) :
    g.total pricedOnly links' ≤ g.total pricedOnly links := by
  rw [Prod.Lex.le_iff]
  have hattos : (if pricedOnly then g.totalAttos links' else 0) ≤ if pricedOnly then g.totalAttos links else 0 := by
    cases pricedOnly with
    | false => exact le_rfl
    | true => exact totalAttos_le_of_sublist h
  rcases hattos.lt_or_eq with hlt | heq
  · exact .inl hlt
  · exact .inr ⟨heq, totalWeight_le_of_sublist h⟩

end

variable (g : TransferCostGraph) (order : Dijkstra.PopOrder MemorySpace Key) (s t : MemorySpace)

/-- What one pass gives: a simple route it may take, the least one when the sums fit, or nothing when there is
no such route. -/
def PassResult (pricedOnly : Bool) : Option (Word 32 × List MemorySpace) → Prop
  | none => ∀ links, g.Route s links t → ¬ g.Admitted pricedOnly links
  | some (cost, path) => ∃ links, g.Route s links t ∧ g.Admitted pricedOnly links ∧ passed s links = path ∧
      path.Nodup ∧ (g.TotalsFit → cost.val = totalWeight links ∧
        ∀ links', g.Route s links' t → g.Admitted pricedOnly links' →
          g.total pricedOnly links ≤ g.total pricedOnly links')

theorem search_spec (pricedOnly : Bool) :
    ∃ result, g.search order s t pricedOnly = .ok result ∧ g.PassResult s t pricedOnly result := by
  have hclosed : ∀ u ∈ s :: g.spaces, ∀ edge ∈ (g.network pricedOnly).edges u, edge.1 ∈ s :: g.spaces := by
    rintro u - ⟨v, l⟩ hedge
    obtain ⟨link, hdeclared, -, rfl, -⟩ := mem_network_edges.mp hedge
    exact mem_cons_of_mem _ (mem_spaces_of_declared hdeclared).2
  have hcorrect := Dijkstra.loop_init_correct order t mem_cons_self hclosed (Nat.lt_succ_self _)
  unfold search
  dsimp only
  generalize Dijkstra.loop _ order s t _ _ = outcome at hcorrect ⊢
  cases outcome with
  | outOfFuel => exact hcorrect.elim
  | unreachable =>
    refine ⟨none, rfl, fun links hroute hadmitted => ?_⟩
    exact hcorrect _ _ (hroute.walk hadmitted)
  | found key path =>
    obtain ⟨p, rfl, hwalk, hnodup, hleast⟩ := hcorrect
    obtain ⟨links, hroute, hadmitted, rfl, rfl⟩ := exists_route_of_walk hwalk
    refine ⟨_, rfl, links, hroute, hadmitted, rfl, hnodup, fun hfit => ?_⟩
    have hmeasures := (hroute.exactWalk hfit hadmitted hnodup).2
    refine ⟨hmeasures.2, fun links' hroute' hadmitted' => ?_⟩
    obtain ⟨short, hshort, hsimple, hsub⟩ := hroute'.simple
    have hadmitted'' : g.Admitted pricedOnly short := fun hp link hlink => hadmitted' hp link (hsub.subset hlink)
    obtain ⟨hexact, hmeasures'⟩ := hshort.exactWalk hfit hadmitted'' hsimple
    exact (total_le_of_keyOf_le hmeasures hmeasures' (hleast _ _ hexact)).trans (total_le_of_sublist hsub)

/-- Priced routes are compared by their attoseconds and then their weight; where there is none, all routes by
their weight. -/
structure Least (links : List Link) : Prop where
  priced : (∃ priced, g.Route s priced t ∧ g.Priced priced) → g.Priced links ∧
    ∀ links', g.Route s links' t → g.Priced links' →
      toLex (g.totalAttos links, totalWeight links) ≤ toLex (g.totalAttos links', totalWeight links')
  unpriced : (¬ ∃ priced, g.Route s priced t ∧ g.Priced priced) →
    ∀ links', g.Route s links' t → totalWeight links ≤ totalWeight links'

def PathResult : Option (Word 32 × List MemorySpace) → Prop
  | none => ∀ links, ¬ g.Route s links t
  | some (cost, path) => ∃ links, g.Route s links t ∧ passed s links = path ∧ path.Nodup ∧
      (g.TotalsFit → cost.val = totalWeight links ∧ g.Least s t links)

variable {g s t}

theorem least_nil : g.Least s s [] where
  priced _ := by
    refine ⟨by simp [Priced], fun links' _ _ => ?_⟩
    simp only [Prod.Lex.le_iff, ofLex_toLex, totalAttos, totalWeight, map_nil, sum_nil]
    omega
  unpriced _ links' _ := Nat.zero_le _

theorem PassResult.priced {cost : Word 32} {path : List MemorySpace}
    (h : g.PassResult s t true (some (cost, path))) : g.PathResult s t (some (cost, path)) := by
  obtain ⟨links, hroute, hadmitted, hpath, hnodup, hleast⟩ := h
  refine ⟨links, hroute, hpath, hnodup, fun hfit => ⟨(hleast hfit).1, ?_, ?_⟩⟩
  · refine fun _ => ⟨hadmitted rfl, fun links' hroute' hpriced' => ?_⟩
    exact (hleast hfit).2 links' hroute' fun _ => hpriced'
  · exact fun hnone => absurd ⟨links, hroute, hadmitted rfl⟩ hnone

theorem PassResult.unpriced {result : Option (Word 32 × List MemorySpace)}
    (hnone : g.PassResult s t true none) (h : g.PassResult s t false result) : g.PathResult s t result := by
  cases result with
  | none => exact fun links hroute => h links hroute (by simp [Admitted])
  | some found =>
    obtain ⟨links, hroute, -, hpath, hnodup, hleast⟩ := h
    refine ⟨links, hroute, hpath, hnodup, fun hfit => ⟨(hleast hfit).1, ?_, ?_⟩⟩
    · rintro ⟨priced, hroute', hpriced⟩
      exact absurd (fun _ => hpriced) (hnone priced hroute')
    · intro _ links' hroute'
      have hle := (hleast hfit).2 links' hroute' (by simp [Admitted])
      simpa [Prod.Lex.le_iff, total] using hle

variable (g s t)

theorem transferPath_spec : ∃ result, g.transferPath order s t = .ok result ∧ g.PathResult s t result := by
  unfold transferPath
  split
  next heq =>
    subst heq
    exact ⟨_, rfl, [], .nil, rfl, by simp, fun _ => ⟨rfl, least_nil⟩⟩
  next =>
    obtain ⟨result, hsearch, hresult⟩ := g.search_spec order s t true
    rw [hsearch]
    cases result with
    | some found => exact ⟨some found, rfl, hresult.priced⟩
    | none =>
      obtain ⟨result', hsearch', hresult'⟩ := g.search_spec order s t false
      exact ⟨result', hsearch', hresult.unpriced hresult'⟩

end TransferCostGraph

end Vx.Routes
