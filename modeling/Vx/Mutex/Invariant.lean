import Vx.Mutex.Ledger
import Vx.Wait.Refines

namespace Vx.Mutex

open List Bool
open Function (update update_of_ne update_self)
open Lib.MachineInt
open Lib.Parking (Phase)
open Wait (Fibers)

variable {ι W B S R : Type} [DecidableEq ι] [DecidableEq W] [DecidableEq B] [DecidableEq S] [Fintype ι] [Fintype B]

section
variable {set : Setting ι W B S R} {t : ι} {k : Place}

inductive Access (t : ι) : Place → (Memory ι R → Memory ι R × Place) → Prop
  | lock : Access t .idle (takeTicket t)
  | drop (ticket : ℤ) : Access t .idle (dropGuard ticket)
  | other (f : R → R) : Access t .idle fun m => ({ m with rest := f m.rest }, .idle)
  | load (ticket : ℤ) : Access t (.load ticket) (readServing t ticket)
  | announce (ticket now : ℤ) :
      Access t (.announce ticket now) fun m => ({ m with sleepers := toI64 (m.sleepers + 1) }, .sleep ticket now)
  | retire (ticket : ℤ) :
      Access t (.retire ticket) fun m => ({ m with sleepers := toI64 (m.sleepers - 1) }, .load ticket)
  | look (ticket : ℤ) : Access t (.look ticket) fun m => (m, if m.sleepers > 0 then .wake ticket else .idle)
  | dropped (ticket : ℤ) : Access t (.dropped ticket) fun m => (m, .idle)

omit [DecidableEq ι] [DecidableEq B] [DecidableEq S] [Fintype ι] [Fintype B] in
theorem does_access {f : Memory ι R → Memory ι R × Place} (h : set.system.program.Does t k (.access f)) : Access t k f := by
  obtain ⟨hact⟩ := h
  next x =>
    cases k <;> cases x <;> cases hact <;> constructor

omit [DecidableEq ι] [DecidableEq B] [DecidableEq S] [Fintype ι] [Fintype B] in
theorem does_wait {word : Word W} {value : ℤ} {k' : Place} (h : set.system.program.Does t k (.wait word value k')) :
    (∃ w, word = .other w ∧ k = .idle ∧ k' = .idle) ∨
      ∃ ticket, word = .serving ∧ k = .sleep ticket value ∧ k' = .retire ticket := by
  cases h with
  | @wait x c k' hact =>
    cases k with
    | idle =>
      cases x with
      | wait c =>
        cases hact
        exact .inl ⟨_, rfl, rfl, rfl⟩
      | _ => cases hact
    | sleep ticket now =>
      cases hact
      exact .inr ⟨ticket, rfl, rfl, rfl⟩
    | _ => cases hact

omit [DecidableEq ι] [DecidableEq B] [DecidableEq S] [Fintype ι] [Fintype B] in
theorem does_wake {words : Set (Word W)} {k' : Place} (h : set.system.program.Does t k (.wake words k')) :
    (k = .idle ∧ k' = .idle) ∨ ∃ ticket, k = .wake ticket ∧ k' = .dropped ticket ∧ Word.serving ∈ words := by
  cases h with
  | @wake x b which k' hact =>
    cases k with
    | idle =>
      cases x with
      | wake b which =>
        cases hact
        exact .inl ⟨rfl, rfl⟩
      | _ => cases hact
    | wake ticket =>
      cases hact
      exact .inr ⟨ticket, rfl, rfl, rfl, by simp [Fibers.takes]⟩
    | _ => cases hact

end

section

def Fits (serving : ℤ) : Phase (Word W) ℤ Place → Prop
  | .running (.announce ticket now) | .running (.sleep ticket now) => now ≤ serving ∧ now < ticket
  | .running _ => True
  | .calling .serving value k | .asleep .serving value k => ∃ ticket, k = .retire ticket ∧ value ≤ serving ∧ value < ticket
  | .calling (.other _) _ k | .asleep (.other _) _ k => k = .idle
  | .waking _ k => k = .idle ∨ ∃ ticket, k = .dropped ticket

def Dropping (ticket : ℤ) : Phase (Word W) ℤ Place → Prop
  | .running (.look ticket') | .running (.wake ticket') => ticket' = ticket
  | .waking words (.dropped ticket') => ticket' = ticket ∧ Word.serving ∈ words
  | _ => False

structure Inv (s : Lib.Parking.State ι (Memory ι R) (Word W) ℤ Place) : Prop where
  ledger : Ledger s.mem fun t => (s.tasks t).cont
  sleepers : s.mem.sleepers = announcedTasks fun t => (s.tasks t).cont
  fits : ∀ t, Fits s.mem.serving (s.tasks t)
  woken : ∀ t value k, s.tasks t = .asleep .serving value k →
    ∀ ticket, value ≤ ticket → ticket < s.mem.serving → ∃ d, Dropping ticket (s.tasks d)

variable {s s' : Lib.Parking.State ι (Memory ι R) (Word W) ℤ Place} {t : ι} {k k' : Place} {p : Phase (Word W) ℤ Place}

omit [DecidableEq W] in
theorem Fits.mono {serving serving' : ℤ} (h : Fits serving p) (hle : serving ≤ serving') : Fits serving' p := by
  cases p with
  | running k =>
    cases k with
    | announce ticket now | sleep ticket now => exact ⟨h.1.trans hle, h.2⟩
    | _ => trivial
  | calling word value k | asleep word value k =>
    cases word with
    | serving =>
      obtain ⟨ticket, hk, hvalue, hlt⟩ := h
      exact ⟨ticket, hk, hvalue.trans hle, hlt⟩
    | other w => exact h
  | waking words k => exact h

variable {p' : Phase (Word W) ℤ Place}

omit [DecidableEq W] in
theorem Fits.left {serving : ℤ} (h : Fits serving p) (hleft : p.Left p') : Fits serving p' := by
  rcases hleft with rfl | ⟨word, value, k, rfl, rfl⟩
  · exact h
  · cases word with
    | serving =>
      obtain ⟨ticket, rfl, -⟩ := h
      trivial
    | other w =>
      cases h
      trivial

omit [DecidableEq W] [DecidableEq ι] in
theorem Inv.frame (h : Inv s) (hmem : s'.mem = s.mem) (hticket : ∀ u, (s'.tasks u).cont.ticket = (s.tasks u).cont.ticket)
    (hannounced : ∀ u, (s'.tasks u).cont.announced = (s.tasks u).cont.announced)
    (hfits : ∀ u, Fits s.mem.serving (s'.tasks u)) (hwoken : ∀ u value k, s'.tasks u = .asleep .serving value k →
      ∀ ticket, value ≤ ticket → ticket < s.mem.serving → ∃ d, Dropping ticket (s'.tasks d)) : Inv s' := by
  refine ⟨?_, ?_, ?_, ?_⟩
  · exact h.ledger.frame (by rw [hmem]) (by rw [hmem]) (by rw [hmem]) (by rw [hmem]) (by rw [hmem]) hticket
  · rw [hmem, h.sleepers, announcedTasks_congr hannounced]
  · rwa [hmem]
  · rwa [hmem]

variable {ticket : ℤ}

omit [DecidableEq W] in
theorem Dropping.left (h : Dropping ticket p) (hleft : p.Left p') : Dropping ticket p' := by
  rcases hleft with rfl | ⟨word, value, k, rfl, rfl⟩
  · exact h
  · exact h.elim

omit [DecidableEq ι] [DecidableEq W] in
theorem Inv.announced_of_asleep (h : Inv s) {value : ℤ} (ht : s.tasks t = .asleep .serving value k) :
    (s.tasks t).cont.announced = true := by
  have hfits := h.fits t
  rw [ht] at hfits ⊢
  obtain ⟨ticket, rfl, -⟩ := hfits
  rfl

omit [DecidableEq W] [Fintype ι] in
theorem cont_update (tasks : ι → Phase (Word W) ℤ Place) (p : Phase (Word W) ℤ Place) :
    (fun u => (update tasks t p u).cont) = update (fun u => (tasks u).cont) t p.cont := by
  funext u
  by_cases hu : u = t
  · rw [hu, update_self, update_self]
  · rw [update_of_ne hu, update_of_ne hu]

omit [DecidableEq W] [Fintype ι] in
theorem forall_update {Q : Phase (Word W) ℤ Place → Prop} {tasks : ι → Phase (Word W) ℤ Place}
    (htasks : ∀ u, Q (tasks u)) (hp : Q p) (u : ι) : Q (update tasks t p u) := by
  by_cases hu : u = t
  · rw [hu, update_self]
    exact hp
  · rw [update_of_ne hu]
    exact htasks u

omit [DecidableEq W] in
theorem Inv.woken_update (h : Inv s) (hp : ∀ value k, p ≠ .asleep .serving value k)
    (hdropping : ∀ ticket, Dropping ticket (s.tasks t) → Dropping ticket p) {u : ι} {value : ℤ}
    (hu : update s.tasks t p u = .asleep .serving value k) (hle : value ≤ ticket)
    (hlt : ticket < s.mem.serving) : ∃ d, Dropping ticket (update s.tasks t p d) := by
  have hut : u ≠ t := by
    rintro rfl
    rw [update_self] at hu
    exact hp _ _ hu
  rw [update_of_ne hut] at hu
  obtain ⟨d, hd⟩ := h.woken u value k hu ticket hle hlt
  refine ⟨d, ?_⟩
  by_cases hdt : d = t
  · subst hdt
    rw [update_self]
    exact hdropping ticket hd
  · rwa [update_of_ne hdt]

end

section
variable {s s' : Lib.Parking.State ι (Memory ι R) (Word W) ℤ Place} {t : ι} {k k' : Place} (h : Inv s)
include h

omit [DecidableEq W] in
theorem Inv.set {p q : Phase (Word W) ℤ Place} (ht : s.tasks t = q) (hticket : p.cont.ticket = q.cont.ticket)
    (hannounced : p.cont.announced = q.cont.announced) (hfits : Fits s.mem.serving p)
    (hp : ∀ value k, p ≠ .asleep .serving value k)
    (hdropping : ∀ ticket, Dropping ticket q → Dropping ticket p) : Inv ⟨s.mem, update s.tasks t p⟩ := by
  subst ht
  refine h.frame rfl (fun u => ?_) (fun u => ?_) (forall_update h.fits hfits)
    fun u value k hu ticket hle hlt => h.woken_update hp hdropping hu hle hlt
  · exact Wait.attr_update (fun _ (p : Phase (Word W) ℤ Place) => p.cont.ticket) hticket u
  · exact Wait.attr_update (fun _ (p : Phase (Word W) ℤ Place) => p.cont.announced) hannounced u

variable {word : Word W} {value : ℤ} {set : Setting ι W B S R}

omit [DecidableEq B] [DecidableEq S] [Fintype B] in
theorem Inv.call (ht : s.tasks t = .running k)
    (hact : set.system.program.Does t k (.wait word value k')) : Inv ⟨s.mem, update s.tasks t (.calling word value k')⟩ := by
  have hfits := h.fits t
  rw [ht] at hfits
  rcases does_wait hact with ⟨w, rfl, rfl, rfl⟩ | ⟨ticket, rfl, rfl, rfl⟩
  · exact h.set ht rfl rfl rfl nofun fun _ hdropping => hdropping.elim
  · exact h.set ht rfl rfl ⟨ticket, rfl, hfits⟩ nofun fun _ hdropping => hdropping.elim

variable {words : Set (Word W)}

omit [DecidableEq B] [DecidableEq S] [Fintype B] in
theorem Inv.start (ht : s.tasks t = .running k)
    (hact : set.system.program.Does t k (.wake words k')) : Inv ⟨s.mem, update s.tasks t (.waking words k')⟩ := by
  rcases does_wake hact with ⟨rfl, rfl⟩ | ⟨ticket, rfl, rfl, hwords⟩
  · exact h.set ht rfl rfl (.inl rfl) nofun fun _ hdropping => hdropping.elim
  · exact h.set ht rfl rfl (.inr ⟨ticket, rfl⟩) nofun fun _ hdropping => ⟨hdropping, hwords⟩

omit [DecidableEq W] in
theorem Inv.back (ht : s.tasks t = .calling word value k) : Inv ⟨s.mem, update s.tasks t (.running k)⟩ := by
  have hfits := h.fits t
  rw [ht] at hfits
  refine h.set ht rfl rfl ?_ nofun fun _ hdropping => hdropping.elim
  cases word with
  | serving =>
    obtain ⟨ticket, rfl, -⟩ := hfits
    trivial
  | other w =>
    cases hfits
    trivial

omit [DecidableEq B] [DecidableEq S] [Fintype B] in
theorem Inv.sleep (set : Setting ι W B S R) (ht : s.tasks t = .calling word value k)
    (hword : set.system.program.read s.mem word = value) : Inv ⟨s.mem, update s.tasks t (.asleep word value k)⟩ := by
  have hfits := h.fits t
  rw [ht] at hfits
  cases word with
  | other w => exact h.set ht rfl rfl hfits nofun fun _ hdropping => hdropping.elim
  | serving =>
    have hcont : ∀ u, (update s.tasks t (.asleep .serving value k) u).cont = (s.tasks u).cont :=
      Wait.attr_update (fun _ (p : Phase (Word W) ℤ Place) => p.cont) (by rw [ht]; rfl)
    refine h.frame rfl (fun u => by rw [hcont]) (fun u => by rw [hcont]) (forall_update h.fits hfits)
      fun u value' k' hu ticket hle hlt => ?_
    dsimp only at hu
    by_cases hut : u = t
    · subst hut
      rw [update_self] at hu
      cases hu
      have hserving : s.mem.serving = value := hword
      omega
    · rw [update_of_ne hut] at hu
      obtain ⟨d, hd⟩ := h.woken u value' k' hu ticket hle hlt
      refine ⟨d, ?_⟩
      have hdt : d ≠ t := by
        rintro rfl
        rw [ht] at hd
        exact hd
      dsimp only
      rwa [update_of_ne hdt]

omit [DecidableEq W] [DecidableEq ι] in
theorem Inv.leave (hmem : s'.mem = s.mem) (hleft : ∀ u, (s.tasks u).Left (s'.tasks u)) : Inv s' := by
  refine h.frame hmem (fun u => by rw [(hleft u).cont]) (fun u => by rw [(hleft u).cont]) (fun u => (h.fits u).left (hleft u))
    fun u value k hu ticket hle hlt => ?_
  obtain ⟨d, hd⟩ := h.woken u value k ((hleft u).asleep hu) ticket hle hlt
  exact ⟨d, hd.left (hleft d)⟩

omit [DecidableEq W] in
theorem Inv.wake (ht : s.tasks t = .waking words k) (hmem : s'.mem = s.mem)
    (ht' : s'.tasks t = .running k) (hleft : ∀ u ≠ t, (s.tasks u).Left (s'.tasks u))
    (hwoken : ∀ u word value k', s'.tasks u = .asleep word value k' → word ∉ words) : Inv s' := by
  have hcont : ∀ u, (s'.tasks u).cont = (s.tasks u).cont := by
    intro u
    by_cases hu : u = t
    · rw [hu, ht, ht']
      rfl
    · exact (hleft u hu).cont
  refine h.frame hmem (fun u => by rw [hcont]) (fun u => by rw [hcont]) (fun u => ?_) fun u value k' hu ticket hle hlt => ?_
  · by_cases hu : u = t
    · have hfits := h.fits t
      rw [ht] at hfits
      rw [hu, ht']
      rcases hfits with rfl | ⟨ticket, rfl⟩ <;> trivial
    · exact (h.fits u).left (hleft u hu)
  · have hut : u ≠ t := by
      rintro rfl
      rw [ht'] at hu
      cases hu
    obtain ⟨d, hd⟩ := h.woken u value k' ((hleft u hut).asleep hu) ticket hle hlt
    have hdt : d ≠ t := by
      rintro rfl
      rw [ht] at hd
      cases k with
      | dropped ticket' => exact hwoken u _ _ _ hu hd.2
      | _ => exact hd
    exact ⟨d, hd.left (hleft d hdt)⟩

end

section
variable {s s' : Lib.Parking.State ι (Memory ι R) (Word W) ℤ Place} {t : ι} {k : Place} {m : Memory ι R} (h : Inv s)
include h

omit [DecidableEq W] in
theorem Inv.access (ht : s.tasks t = .running k) {p : Place}
    (hledger : Ledger m (update (fun u => (s.tasks u).cont) t p)) (hserving : m.serving = s.mem.serving)
    (hsleepers : m.sleepers + k.announced.toNat = s.mem.sleepers + p.announced.toNat)
    (hfits : Fits s.mem.serving (.running p : Phase (Word W) ℤ Place))
    (hdropping : ∀ ticket, Dropping ticket (.running k : Phase (Word W) ℤ Place) →
      Dropping ticket (.running p : Phase (Word W) ℤ Place) ∨ ∀ u value k, s.tasks u ≠ .asleep .serving value k) :
    Inv ⟨m, update s.tasks t (.running p)⟩ := by
  refine ⟨?_, ?_, ?_, fun u value k' hu ticket hle hlt => ?_⟩
  · rw [cont_update]
    exact hledger
  · have hcount := announcedTasks_update (fun u => (s.tasks u).cont) t p
    have hold := h.sleepers
    have hcont : (s.tasks t).cont = k := by rw [ht]; rfl
    rw [hcont] at hcount
    rw [cont_update]
    show m.sleepers = announcedTasks (update (fun u => (s.tasks u).cont) t p)
    omega
  · rw [hserving]
    exact forall_update h.fits hfits
  · dsimp only at hu hlt ⊢
    rw [hserving] at hlt
    by_cases hnone : ∀ u value k, s.tasks u ≠ .asleep .serving value k
    · have hut : u ≠ t := by
        rintro rfl
        rw [update_self] at hu
        cases hu
      rw [update_of_ne hut] at hu
      exact (hnone u value k' hu).elim
    · refine h.woken_update (fun _ _ heq => by cases heq) (fun ticket' hd => ?_) hu hle hlt
      rw [ht] at hd
      exact (hdropping ticket' hd).resolve_right hnone

omit [DecidableEq W] in
theorem Inv.ledger_set (ht : s.tasks t = .running k) {p : Place} (hnext : m.next = s.mem.next)
    (hserving : m.serving = s.mem.serving) (hguards : m.guards = s.mem.guards) (htaken : m.taken = s.mem.taken)
    (hgranted : m.granted = s.mem.granted) (hp : p.ticket = k.ticket) :
    Ledger m (update (fun u => (s.tasks u).cont) t p) := by
  refine h.ledger.frame hnext hserving hguards htaken hgranted fun u => ?_
  exact Wait.attr_update (fun _ (p : Place) => p.ticket) (by rw [ht]; exact hp) u

variable {ticket : ℤ}

omit [DecidableEq W] in
theorem Inv.load (ht : s.tasks t = .running (.load ticket)) :
    Inv ⟨(readServing t ticket s.mem).1, update s.tasks t (.running (readServing t ticket s.mem).2)⟩ := by
  have hticket : ((s.tasks t).cont).ticket = some ticket := by rw [ht]; rfl
  have hledger := h.ledger.readServing hticket
  refine h.access ht hledger ?_ ?_ ?_ fun _ hdropping => hdropping.elim
  · unfold readServing
    split <;> rfl
  · unfold readServing
    split <;> rfl
  · unfold readServing
    split
    next hne =>
      have hle := h.ledger.serving_le
      rcases h.ledger.ticket_ge hticket with ⟨hge, -⟩ | hlt
      · exact ⟨le_rfl, by omega⟩
      · exact ⟨le_rfl, by omega⟩
    next => trivial

omit [DecidableEq W] in
theorem Inv.announce {now : ℤ} (ht : s.tasks t = .running (.announce ticket now))
    (hroom : s.mem.taken.length < 2 ^ 63) :
    Inv ⟨{ s.mem with sleepers := toI64 (s.mem.sleepers + 1) }, update s.tasks t (.running (.sleep ticket now))⟩ := by
  have hfits := h.fits t
  rw [ht] at hfits
  have hledger : Ledger { s.mem with sleepers := toI64 (s.mem.sleepers + 1) }
    (update (fun u => (s.tasks u).cont) t (.sleep ticket now)) := h.ledger_set ht rfl rfl rfl rfl rfl rfl
  refine h.access ht hledger rfl ?_ hfits fun _ hdropping => hdropping.elim
  have hcount := announcedTasks_update (fun u => (s.tasks u).cont) t (.sleep ticket now)
  have hle := hledger.announcedTasks_le
  have hold := h.sleepers
  have hcont : (s.tasks t).cont = .announce ticket now := by rw [ht]; rfl
  simp only [hcont, Place.announced, toNat_false, toNat_true] at hcount ⊢
  rw [toI64_eq (by omega) (by dsimp only at hle; omega)]
  omega

omit [DecidableEq W] in
theorem Inv.retire (ht : s.tasks t = .running (.retire ticket)) (hroom : s.mem.taken.length < 2 ^ 63) :
    Inv ⟨{ s.mem with sleepers := toI64 (s.mem.sleepers - 1) }, update s.tasks t (.running (.load ticket))⟩ := by
  have hledger : Ledger { s.mem with sleepers := toI64 (s.mem.sleepers - 1) }
    (update (fun u => (s.tasks u).cont) t (.load ticket)) := h.ledger_set ht rfl rfl rfl rfl rfl rfl
  refine h.access ht hledger rfl ?_ trivial fun _ hdropping => hdropping.elim
  have hle := h.ledger.announcedTasks_le
  have hold := h.sleepers
  simp only [Place.announced, toNat_false, toNat_true]
  rw [toI64_eq (by omega) (by omega)]
  omega

omit [DecidableEq W] in
theorem Inv.look (ht : s.tasks t = .running (.look ticket)) :
    Inv ⟨s.mem, update s.tasks t (.running (if s.mem.sleepers > 0 then .wake ticket else .idle))⟩ := by
  split
  next =>
    exact h.access ht (h.ledger_set ht rfl rfl rfl rfl rfl rfl) rfl rfl trivial fun _ hdropping => .inl hdropping
  next hnone =>
    refine h.access ht (h.ledger_set ht rfl rfl rfl rfl rfl rfl) rfl rfl trivial fun _ _ => .inr fun u value k hu => ?_
    have hpos : 0 < announcedTasks fun t => (s.tasks t).cont := announcedTasks_pos (t := u) (h.announced_of_asleep hu)
    have hsleepers := h.sleepers
    omega

omit [DecidableEq W] in
theorem Inv.drop (ht : s.tasks t = .running .idle) (hroom : s.mem.taken.length < 2 ^ 63) :
    Inv ⟨(dropGuard ticket s.mem).1, update s.tasks t (.running (dropGuard ticket s.mem).2)⟩ := by
  by_cases hmem : ticket ∈ s.mem.guards
  · obtain ⟨hticket, hserving, hledger⟩ := h.ledger.dropGuard (t := t) hmem hroom
    have hplace : (dropGuard ticket s.mem).2 = .look ticket := by
      unfold dropGuard
      rw [if_pos hmem]
    have hsleepers : (dropGuard ticket s.mem).1.sleepers = s.mem.sleepers := by
      unfold dropGuard
      rw [if_pos hmem]
    refine ⟨?_, ?_, fun u => ?_, fun u value k hu ticket' hle hlt => ?_⟩
    · rw [cont_update]
      exact hledger (by rw [ht]; rfl)
    · rw [hsleepers, h.sleepers, hplace, announcedTasks_congr]
      exact fun u => (Wait.attr_update (fun _ (p : Phase (Word W) ℤ Place) => p.cont.announced) (by rw [ht]; rfl) u).symm
    · rw [hserving, hplace]
      have hfits : ∀ u, Fits (s.mem.serving + 1) (s.tasks u) := fun u => (h.fits u).mono (by omega)
      have hlook : Fits (s.mem.serving + 1) (.running (.look ticket) : Phase (Word W) ℤ Place) := trivial
      exact forall_update hfits hlook u
    · dsimp only at hu hlt ⊢
      rw [hplace] at hu ⊢
      have hut : u ≠ t := by
        rintro rfl
        rw [update_self] at hu
        cases hu
      rw [update_of_ne hut] at hu
      by_cases hlast : ticket' < s.mem.serving
      · obtain ⟨d, hd⟩ := h.woken u value k hu ticket' hle hlast
        have hdt : d ≠ t := by
          rintro rfl
          rw [ht] at hd
          exact hd
        exact ⟨d, by rwa [update_of_ne hdt]⟩
      · refine ⟨t, ?_⟩
        rw [update_self]
        show ticket = ticket'
        omega
  · have hnone : dropGuard ticket s.mem = (s.mem, .idle) := by
      unfold dropGuard
      rw [if_neg hmem]
    rw [hnone]
    exact h.access ht (h.ledger_set ht rfl rfl rfl rfl rfl rfl) rfl rfl trivial fun _ hdropping => hdropping.elim

omit [DecidableEq W] in
theorem Inv.access_step {f : Memory ι R → Memory ι R × Place} (ht : s.tasks t = .running k)
    (haccess : Access t k f) (hroom : (f s.mem).1.taken.length < 2 ^ 63) :
    Inv ⟨(f s.mem).1, update s.tasks t (.running (f s.mem).2)⟩ := by
  cases haccess with
  | lock =>
    rw [takeTicket, length_append, length_singleton] at hroom
    refine h.access ht ?_ rfl rfl trivial fun _ hdropping => hdropping.elim
    exact h.ledger.takeTicket (by rw [ht]; rfl) hroom
  | drop ticket =>
    refine h.drop ht ?_
    unfold dropGuard at hroom
    split at hroom <;> exact hroom
  | other f => exact h.access ht (h.ledger_set ht rfl rfl rfl rfl rfl rfl) rfl rfl trivial fun _ hdropping => hdropping.elim
  | load ticket => exact h.load ht
  | announce ticket now => exact h.announce ht hroom
  | retire ticket => exact h.retire ht hroom
  | look ticket => exact h.look ht
  | dropped ticket =>
    exact h.access ht (h.ledger_set ht rfl rfl rfl rfl rfl rfl) rfl rfl trivial fun _ hdropping => hdropping.elim

end

variable {set : Setting ι W B S R} {s s' : Lib.Parking.State ι (Memory ι R) (Word W) ℤ Place}

omit [DecidableEq B] [DecidableEq S] [Fintype B] in
theorem Inv.step (h : Inv s) (hstep : Lib.Parking.Step set.system.program s s') (hroom : s'.mem.taken.length < 2 ^ 63) :
    Inv s' := by
  cases hstep with
  | access ht hact => exact h.access_step ht (does_access hact) hroom
  | call ht hact => exact h.call ht hact
  | sleep ht hword => exact h.sleep set ht hword
  | back ht => exact h.back ht
  | leave hmem hleft => exact h.leave hmem hleft
  | start ht hact => exact h.start ht hact
  | wake ht hmem ht' hleft hwoken => exact h.wake ht hmem ht' hleft hwoken

omit [DecidableEq B] [DecidableEq S] [Fintype ι] [Fintype B] in
theorem taken_step (hstep : Lib.Parking.Step set.system.program s s') : s.mem.taken.length ≤ s'.mem.taken.length := by
  cases hstep with
  | @access t k f ht hact =>
    have haccess := does_access hact
    cases haccess with
    | lock =>
      rw [takeTicket, length_append]
      exact Nat.le_add_right _ _
    | drop ticket =>
      rw [dropGuard]
      split <;> exact le_rfl
    | load ticket =>
      rw [readServing]
      split <;> exact le_rfl
    | _ => exact le_rfl
  | leave hmem => rw [hmem]
  | wake _ hmem => rw [hmem]
  | _ => exact le_rfl

omit [DecidableEq B] [DecidableEq S] [Fintype B] in
theorem Inv.reach (h : Inv s) (hrun : Lib.Parking.Reaches set.system.program s s') (hroom : s'.mem.taken.length < 2 ^ 63) :
    Inv s' := by
  induction hrun with
  | refl => exact h
  | tail _ hstep ih => exact (ih (Nat.lt_of_le_of_lt (taken_step hstep) hroom)).step hstep hroom

omit [DecidableEq ι] [DecidableEq W] in
theorem inv_new (rest : R) (hmem : s.mem = .new rest) (hidle : ∀ t, s.tasks t = .running .idle) : Inv s := by
  refine ⟨⟨?_, ?_, ?_, ?_, fun t ticket => ?_⟩, ?_, fun t => ?_, fun t value k ht => ?_⟩
  · rw [hmem]
    rfl
  · rw [hmem]
    rfl
  · rw [hmem]
    exact nil_prefix
  · rw [hmem]
    exact .inl ⟨rfl, rfl⟩
  · rw [hidle, hmem]
    simp [Memory.new, Phase.cont, Place.ticket]
  · simp [hmem, hidle, Memory.new, announcedTasks, Phase.cont, Place.announced]
  · rw [hidle]
    trivial
  · rw [hidle] at ht
    cases ht

end Vx.Mutex
