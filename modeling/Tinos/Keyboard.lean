/-
The scancode ring of `drivers/keyboard/kb.c`, filled by the keyboard interrupt
and emptied by `kbd_pop`.

The interrupt runs `kbd_push` to its end, but between any two of the memory
accesses of `kbd_pop`, so the latter is cut into these (`popAccess`), and what
it holds in registers between them is `PopState`. C leaves open which side of
`kbd_head == kbd_tail` is loaded first; both orders are runs.
-/
import Tinos.Lib.Ring
import Tinos.Lib.Runs

namespace Tinos

open Runs

/-! ## The ring -/

/-- The statics of `kb.c`. -/
structure Keyboard where
  buffer : Nat → UInt8
  head : UInt32
  tail : UInt32

def kbdBufSize : UInt32 := 256

def bootKeyboard : Keyboard := ⟨fun _ => 0, 0, 0⟩

def kbdPush (k : Keyboard) (scancode : UInt8) : Keyboard :=
  let next := (k.head + 1) % kbdBufSize
  if next != k.tail then
    { k with buffer := Function.update k.buffer k.head.toNat scancode, head := next }
  else k

def kbdPop (k : Keyboard) : UInt8 × Keyboard :=
  if k.head == k.tail then (0, k)
  else
    let scancode := k.buffer k.tail.toNat
    (scancode, { k with tail := (k.tail + 1) % kbdBufSize })

/-! ## `kbd_pop`, access by access -/

/-- What `kbd_pop` has loaded so far. -/
inductive PopState
  | idle
  | head (head : UInt32)
  | tail (tail : UInt32)
  | nonEmpty
  | index (tail : UInt32)
  | slot (scancode : UInt8)
  | next (scancode : UInt8) (tail : UInt32)

inductive PopAccess
  | loadHead
  | loadTail
  | loadSlot
  | storeTail
deriving DecidableEq

structure KbdState where
  ring : Keyboard
  pop : PopState

/-- One access of `kbd_pop`, with what it returns where that is its last. -/
def popAccess (s : KbdState) (a : PopAccess) : Option (Option UInt8 × KbdState) :=
  let compared := fun (empty : Bool) =>
    if empty then some (some 0, { s with pop := .idle }) else some (none, { s with pop := .nonEmpty })
  match s.pop, a with
  | .idle, .loadHead => some (none, { s with pop := .head s.ring.head })
  | .idle, .loadTail => some (none, { s with pop := .tail s.ring.tail })
  | .head head, .loadTail => compared (head == s.ring.tail)
  | .tail tail, .loadHead => compared (s.ring.head == tail)
  | .nonEmpty, .loadTail => some (none, { s with pop := .index s.ring.tail })
  | .index tail, .loadSlot => some (none, { s with pop := .slot (s.ring.buffer tail.toNat) })
  | .slot scancode, .loadTail => some (none, { s with pop := .next scancode s.ring.tail })
  | .next scancode tail, .storeTail =>
    some (some scancode, ⟨{ s.ring with tail := (tail + 1) % kbdBufSize }, .idle⟩)
  | _, _ => none

inductive KbdEvent
  | push (scancode : UInt8) (accepted : Bool)
  | access (a : PopAccess) (answer : Option UInt8)

/-- An interrupt that pushes a scancode other than 0, or the next access. -/
def KbdStep (s : KbdState) : KbdEvent → KbdState → Prop
  | .push scancode accepted, s' => scancode ≠ 0 ∧ accepted = ((s.ring.head + 1) % kbdBufSize != s.ring.tail) ∧
      s' = { s with ring := kbdPush s.ring scancode }
  | .access a answer, s' => popAccess s a = some (answer, s')

def bootKbd : KbdState := ⟨bootKeyboard, .idle⟩

/-- The scancodes put in the ring. -/
def accepted (es : List KbdEvent) : List UInt8 :=
  es.filterMap fun
    | .push scancode true => some scancode
    | _ => none

/-- The answers of `kbd_pop` other than 0. -/
def returned (es : List KbdEvent) : List UInt8 :=
  es.filterMap fun
    | .access _ (some scancode) => if scancode = 0 then none else some scancode
    | _ => none

/-- What is in the ring, oldest first. -/
def Keyboard.unread (k : Keyboard) : List UInt8 :=
  Ring.contents k.buffer 256 k.tail.toNat k.head.toNat

/-- When `kbd_head` was last loaded, all that had been accepted had been
returned. -/
def EmptyAtHeadLoad (es : List KbdEvent) : Prop :=
  ∃ es₁ answer es₂, es = es₁ ++ .access .loadHead answer :: es₂ ∧ (∀ answer', .access .loadHead answer' ∉ es₂) ∧
    accepted es₁ = returned es₁

/-- `kbd_pop` is past its comparison, which found `kbd_head != kbd_tail`. -/
def PopState.foundUnread : PopState → Bool
  | .nonEmpty | .index _ | .slot _ | .next _ _ => true
  | .idle | .head _ | .tail _ => false

def KbdEvent.isAccess : KbdEvent → Bool
  | .push _ _ => false
  | .access _ _ => true

/-- No `kbd_pop` ends. -/
def Unanswered (es : List KbdEvent) : Prop := ∀ a c, .access a (some c) ∉ es

/-- What becomes of a `kbd_pop`, whatever is pushed meanwhile. -/
structure PopDelivers (s : KbdState) : Prop where
  /-- It can always go on. -/
  enabled : ∃ a answer s', KbdStep s (.access a answer) s'
  /-- It is over with its answer, and not before. -/
  ends : ∀ a answer s', KbdStep s (.access a answer) s' → (s'.pop = .idle ↔ answer ≠ none)
  /-- Its sixth access is the last, if none before was. -/
  bounded : ∀ es s', Steps KbdStep s es s' → Unanswered es → es.countP KbdEvent.isAccess < 6
  /-- Once it has found the ring not empty, it answers the oldest scancode there. -/
  oldest : s.pop.foundUnread = true → ∃ c, s.ring.unread.head? = some c ∧ ∀ es a answer s',
    Steps KbdStep s (es ++ [.access a (some answer)]) s' → Unanswered es → answer = c

/-- What holds of the values `kbd_pop` has loaded, whatever was pushed since. -/
def PopHolds (es : List KbdEvent) (k : Keyboard) : PopState → Prop
  | .idle => True
  | .head head => if head = k.tail then EmptyAtHeadLoad es else k.head ≠ k.tail
  | .tail tail => tail = k.tail
  | .nonEmpty => k.head ≠ k.tail
  | .index tail => k.head ≠ k.tail ∧ tail = k.tail
  | .slot scancode => k.head ≠ k.tail ∧ scancode = k.buffer k.tail.toNat
  | .next scancode tail => k.head ≠ k.tail ∧ scancode = k.buffer k.tail.toNat ∧ tail = k.tail

/-- After `es` the ring holds what was accepted and not returned. -/
structure KbdInv (es : List KbdEvent) (s : KbdState) : Prop where
  head_lt : s.ring.head.toNat < 256
  tail_lt : s.ring.tail.toNat < 256
  queue : accepted es = returned es ++ s.ring.unread
  nonzero : ∀ c ∈ accepted es, c ≠ 0
  pop : PopHolds es s.ring s.pop

section Ring

variable {k : Keyboard} {c : UInt8} {i j : UInt32}

theorem nextIndex_toNat : ((i + 1) % kbdBufSize).toNat = (i.toNat + 1) % 256 := by
  rw [kbdBufSize, UInt32.toNat_mod, UInt32.toNat_add]
  simp only [UInt32.toNat_one, UInt32.reduceToNat]
  omega

theorem toNat_ne_of_ne (h : i ≠ j) : i.toNat ≠ j.toNat := fun he =>
  h (UInt32.toNat_inj.mp he)

theorem unread_eq_nil_iff (ht : k.tail.toNat < 256) : k.unread = [] ↔ k.head = k.tail := by
  rw [Keyboard.unread, Ring.contents_eq_nil_iff ht, UInt32.toNat_inj]

/-- What a push does: nothing where the next head is the tail. -/
theorem kbdPush_cases (k : Keyboard) (c : UInt8) :
    (((k.head + 1) % kbdBufSize != k.tail) = false ∧ kbdPush k c = k) ∨
    (((k.head + 1) % kbdBufSize != k.tail) = true ∧ kbdPush k c =
      { k with buffer := Function.update k.buffer k.head.toNat c, head := (k.head + 1) % kbdBufSize }) := by
  cases hroom : (k.head + 1) % kbdBufSize != k.tail with
  | false => exact .inl ⟨rfl, by simp only [kbdPush, hroom, Bool.false_eq_true, if_false]⟩
  | true => exact .inr ⟨rfl, by simp only [kbdPush, hroom, if_true]⟩

theorem kbdPush_tail : (kbdPush k c).tail = k.tail := by
  rcases kbdPush_cases k c with ⟨-, hk⟩ | ⟨-, hk⟩
  · rw [hk]
  · rw [hk]

theorem kbdPush_head_lt (hh : k.head.toNat < 256) : (kbdPush k c).head.toNat < 256 := by
  rcases kbdPush_cases k c with ⟨-, hk⟩ | ⟨-, hk⟩
  · rwa [hk]
  · rw [hk, nextIndex_toNat]
    exact Ring.next_lt hh

/-- A push never empties the ring. -/
theorem kbdPush_nonEmpty (hne : k.head ≠ k.tail) : (kbdPush k c).head ≠ (kbdPush k c).tail := by
  rcases kbdPush_cases k c with ⟨-, hk⟩ | ⟨hroom, hk⟩
  · rwa [hk]
  · rw [hk]
    exact bne_iff_ne.mp hroom

/-- A push leaves the slot that is next to be read. -/
theorem kbdPush_oldest (hne : k.head ≠ k.tail) : (kbdPush k c).buffer k.tail.toNat = k.buffer k.tail.toNat := by
  rcases kbdPush_cases k c with ⟨-, hk⟩ | ⟨-, hk⟩
  · rw [hk]
  · rw [hk]
    exact Function.update_of_ne (toNat_ne_of_ne hne.symm) c k.buffer

theorem unread_push (hh : k.head.toNat < 256) (ht : k.tail.toNat < 256) :
    (kbdPush k c).unread = k.unread ++ if (k.head + 1) % kbdBufSize != k.tail then [c] else [] := by
  rcases kbdPush_cases k c with ⟨hfull, hk⟩ | ⟨hroom, hk⟩
  · rw [hk, hfull, if_neg Bool.false_ne_true, List.append_nil]
  · have hne : (k.head.toNat + 1) % 256 ≠ k.tail.toNat := by
      rw [← nextIndex_toNat]
      exact toNat_ne_of_ne (bne_iff_ne.mp hroom)
    rw [hk, hroom, if_pos rfl]
    simp only [Keyboard.unread]
    rw [nextIndex_toNat, Ring.contents_push ht hh hne]

theorem unread_pop (hh : k.head.toNat < 256) (ht : k.tail.toNat < 256) (hne : k.head ≠ k.tail) :
    k.unread = k.buffer k.tail.toNat :: Keyboard.unread { k with tail := (k.tail + 1) % kbdBufSize } := by
  simp only [Keyboard.unread]
  rw [nextIndex_toNat, ← Ring.contents_pop ht hh (toNat_ne_of_ne hne)]

/-- A push is dropped only where 255 scancodes wait. -/
theorem unread_full (hh : k.head.toNat < 256) (hfull : ((k.head + 1) % kbdBufSize != k.tail) = false) :
    k.unread.length = 255 := by
  rw [bne_eq_false_iff_eq] at hfull
  rw [Keyboard.unread, Ring.contents_length, Ring.used_full hh (by rw [← nextIndex_toNat, hfull])]

end Ring

section Runs

variable {es : List KbdEvent} {s s' : KbdState} {k : Keyboard} {p : PopState} {a : PopAccess} {answer : Option UInt8}
  {c : UInt8} {b : Bool}

/-! ## Histories -/

theorem accepted_push : accepted (es ++ [.push c b]) = accepted es ++ if b then [c] else [] := by
  rw [accepted, List.filterMap_append]
  cases b with
  | false => rfl
  | true => rfl

theorem accepted_access : accepted (es ++ [.access a answer]) = accepted es := by
  rw [accepted, List.filterMap_append]
  exact List.append_nil _

theorem returned_push : returned (es ++ [.push c b]) = returned es := by
  rw [returned, List.filterMap_append]
  exact List.append_nil _

theorem returned_zero (h : answer = none ∨ answer = some 0) : returned (es ++ [.access a answer]) = returned es := by
  rw [returned, List.filterMap_append]
  rcases h with rfl | rfl
  · exact List.append_nil _
  · exact List.append_nil _

theorem returned_scancode (hc : c ≠ 0) : returned (es ++ [.access a (some c)]) = returned es ++ [c] := by
  rw [returned, List.filterMap_append]
  simp only [List.filterMap_cons, if_neg hc, List.filterMap_nil]
  rfl

theorem EmptyAtHeadLoad.snoc {e : KbdEvent} (h : EmptyAtHeadLoad es) (he : ∀ answer, e ≠ .access .loadHead answer) :
    EmptyAtHeadLoad (es ++ [e]) := by
  obtain ⟨es₁, answer, es₂, rfl, hes₂, hempty⟩ := h
  refine ⟨es₁, answer, es₂ ++ [e], by simp, ?_, hempty⟩
  intro answer' hmem
  rcases List.mem_append.mp hmem with hmem | hmem
  · exact hes₂ answer' hmem
  · exact he answer' (List.mem_singleton.mp hmem).symm

theorem EmptyAtHeadLoad.now (h : accepted es = returned es) : EmptyAtHeadLoad (es ++ [.access .loadHead answer]) :=
  ⟨es, answer, [], rfl, fun _ => List.not_mem_nil, h⟩

/-! ## Steps -/

/-- What `kbd_pop` has loaded stays true across a push. -/
theorem PopHolds.push (h : PopHolds es k p) : PopHolds (es ++ [.push c b]) (kbdPush k c) p := by
  cases p with
  | idle => trivial
  | head head =>
    simp only [PopHolds, kbdPush_tail] at h ⊢
    by_cases hhead : head = k.tail
    · rw [if_pos hhead] at h ⊢
      exact h.snoc fun _ he => KbdEvent.noConfusion he
    · rw [if_neg hhead] at h ⊢
      exact kbdPush_tail ▸ kbdPush_nonEmpty h
  | tail tail => exact h.trans kbdPush_tail.symm
  | nonEmpty => exact kbdPush_nonEmpty h
  | index tail => exact ⟨kbdPush_nonEmpty h.1, h.2.trans kbdPush_tail.symm⟩
  | slot scancode =>
    refine ⟨kbdPush_nonEmpty h.1, ?_⟩
    rw [kbdPush_tail, kbdPush_oldest h.1]
    exact h.2
  | next scancode tail =>
    refine ⟨kbdPush_nonEmpty h.1, ?_, h.2.2.trans kbdPush_tail.symm⟩
    rw [kbdPush_tail, kbdPush_oldest h.1]
    exact h.2.1

theorem KbdInv.push (inv : KbdInv es s) (hc : c ≠ 0) :
    KbdInv (es ++ [.push c ((s.ring.head + 1) % kbdBufSize != s.ring.tail)]) { s with ring := kbdPush s.ring c } where
  head_lt := kbdPush_head_lt inv.head_lt
  tail_lt := by
    rw [kbdPush_tail]
    exact inv.tail_lt
  queue := by
    rw [accepted_push, returned_push, unread_push inv.head_lt inv.tail_lt, inv.queue, List.append_assoc]
  nonzero := by
    rw [accepted_push]
    intro d hd
    rcases List.mem_append.mp hd with hd | hd
    · exact inv.nonzero d hd
    · split at hd
      · rwa [List.mem_singleton.mp hd]
      · exact absurd hd List.not_mem_nil
  pop := inv.pop.push

/-- An access that stores nothing need only account for what it loads. -/
theorem KbdInv.load (inv : KbdInv es s) (h : answer = none ∨ answer = some 0)
    (hp : PopHolds (es ++ [.access a answer]) s.ring p) : KbdInv (es ++ [.access a answer]) { s with pop := p } where
  head_lt := inv.head_lt
  tail_lt := inv.tail_lt
  queue := by rw [accepted_access, returned_zero h, inv.queue]
  nonzero := by
    rw [accepted_access]
    exact inv.nonzero
  pop := hp

/-- An empty ring holds no scancode that was accepted. -/
theorem KbdInv.accepted_eq (inv : KbdInv es s) (hempty : s.ring.head = s.ring.tail) : accepted es = returned es := by
  rw [inv.queue, (unread_eq_nil_iff inv.tail_lt).mpr hempty, List.append_nil]

/-- The slot that is next to be read holds an accepted scancode. -/
theorem KbdInv.oldest_ne (inv : KbdInv es s) (hne : s.ring.head ≠ s.ring.tail) :
    s.ring.buffer s.ring.tail.toNat ≠ 0 := by
  apply inv.nonzero
  rw [inv.queue, unread_pop inv.head_lt inv.tail_lt hne]
  exact List.mem_append_right _ List.mem_cons_self

/-- The last access returns the oldest scancode and frees its slot. -/
theorem KbdInv.store (inv : KbdInv es s) (hne : s.ring.head ≠ s.ring.tail) :
    KbdInv (es ++ [.access a (some (s.ring.buffer s.ring.tail.toNat))])
      ⟨{ s.ring with tail := (s.ring.tail + 1) % kbdBufSize }, .idle⟩ where
  head_lt := inv.head_lt
  tail_lt := by
    rw [nextIndex_toNat]
    exact Ring.next_lt inv.tail_lt
  queue := by
    rw [accepted_access, returned_scancode (inv.oldest_ne hne), inv.queue, unread_pop inv.head_lt inv.tail_lt hne,
      List.append_assoc, List.singleton_append]
  nonzero := by
    rw [accepted_access]
    exact inv.nonzero
  pop := trivial

/-- Each access of `kbd_pop` keeps the queue, and one that returns 0 follows
the load of `kbd_head` from an empty ring. -/
theorem KbdInv.access (inv : KbdInv es s) (h : popAccess s a = some (answer, s')) :
    KbdInv (es ++ [.access a answer]) s' ∧ (answer = some 0 → EmptyAtHeadLoad (es ++ [.access a answer])) := by
  obtain ⟨k, p⟩ := s
  have hp : PopHolds es k p := inv.pop
  -- A pair that is not listed is not a state and its next access.
  match p, a, hp, h with
  | .idle, .loadHead, _, rfl =>
    refine ⟨inv.load (.inl rfl) ?_, fun h => nomatch h⟩
    simp only [PopHolds]
    split
    · next hempty => exact .now (inv.accepted_eq hempty)
    · next hne => exact hne
  | .idle, .loadTail, _, rfl => exact ⟨inv.load (.inl rfl) rfl, fun h => nomatch h⟩
  | .head head, .loadTail, hp, h =>
    simp only [popAccess] at h
    simp only [PopHolds] at hp
    by_cases hhead : head = k.tail
    · rw [if_pos hhead] at hp
      rw [beq_iff_eq.mpr hhead] at h
      cases h
      exact ⟨inv.load (.inr rfl) trivial, fun _ => hp.snoc fun _ he => by cases he⟩
    · rw [if_neg hhead] at hp
      rw [beq_eq_false_iff_ne.mpr hhead] at h
      cases h
      exact ⟨inv.load (.inl rfl) hp, fun h => nomatch h⟩
  | .tail tail, .loadHead, hp, h =>
    simp only [popAccess] at h
    cases hp
    by_cases hempty : k.head = k.tail
    · rw [beq_iff_eq.mpr hempty] at h
      cases h
      exact ⟨inv.load (.inr rfl) trivial, fun _ => .now (inv.accepted_eq hempty)⟩
    · rw [beq_eq_false_iff_ne.mpr hempty] at h
      cases h
      exact ⟨inv.load (.inl rfl) hempty, fun h => nomatch h⟩
  | .nonEmpty, .loadTail, hp, rfl => exact ⟨inv.load (.inl rfl) ⟨hp, rfl⟩, fun h => nomatch h⟩
  | .index tail, .loadSlot, hp, rfl => exact ⟨inv.load (.inl rfl) ⟨hp.1, by rw [hp.2]⟩, fun h => nomatch h⟩
  | .slot scancode, .loadTail, hp, rfl => exact ⟨inv.load (.inl rfl) ⟨hp.1, hp.2, rfl⟩, fun h => nomatch h⟩
  | .next scancode tail, .storeTail, hp, rfl =>
    obtain ⟨hne, rfl, rfl⟩ := hp
    exact ⟨inv.store hne, fun h => absurd (Option.some.inj h) (inv.oldest_ne hne)⟩

theorem KbdInv.step {e : KbdEvent} (inv : KbdInv es s) (h : KbdStep s e s') : KbdInv (es ++ [e]) s' := by
  cases e with
  | push c b =>
    obtain ⟨hc, rfl, rfl⟩ := h
    exact inv.push hc
  | access a answer => exact (inv.access h).1

/-- The invariant holds after every run from boot. -/
theorem KbdInv.run (h : Steps KbdStep bootKbd es s) : KbdInv es s := by
  induction h with
  | nil =>
    exact { head_lt := by decide, tail_lt := by decide, queue := rfl, nonzero := fun _ h => absurd h List.not_mem_nil,
            pop := trivial }
  | snoc _ he ih => exact ih.step he

/-! ## Delivery -/

/-- How many accesses `kbd_pop` has left at most. -/
def PopState.left : PopState → Nat
  | .idle => 6
  | .head _ | .tail _ => 5
  | .nonEmpty => 4
  | .index _ => 3
  | .slot _ => 2
  | .next _ _ => 1

theorem PopState.left_bounds (p : PopState) : 0 < p.left ∧ p.left ≤ 6 := by
  cases p <;> simp only [left] <;> decide

theorem popAccess_enabled (s : KbdState) : ∃ a answer s', popAccess s a = some (answer, s') := by
  obtain ⟨k, p⟩ := s
  cases p with
  | idle => exact ⟨.loadHead, _, _, rfl⟩
  | head head =>
    cases hempty : head == k.tail with
    | true => exact ⟨.loadTail, some 0, ⟨k, .idle⟩, by simp only [popAccess, hempty, if_true]⟩
    | false =>
      exact ⟨.loadTail, none, ⟨k, .nonEmpty⟩, by simp only [popAccess, hempty, Bool.false_eq_true, if_false]⟩
  | tail tail =>
    cases hempty : k.head == tail with
    | true => exact ⟨.loadHead, some 0, ⟨k, .idle⟩, by simp only [popAccess, hempty, if_true]⟩
    | false =>
      exact ⟨.loadHead, none, ⟨k, .nonEmpty⟩, by simp only [popAccess, hempty, Bool.false_eq_true, if_false]⟩
  | nonEmpty => exact ⟨.loadTail, _, _, rfl⟩
  | index tail => exact ⟨.loadSlot, _, _, rfl⟩
  | slot scancode => exact ⟨.loadTail, _, _, rfl⟩
  | next scancode tail => exact ⟨.storeTail, _, _, rfl⟩

/-- What an access does that is not the last. -/
theorem popAccess_unanswered (h : popAccess s a = some (none, s')) :
    s'.pop.left + 1 = s.pop.left ∧ s'.pop ≠ .idle ∧ s'.ring = s.ring ∧
      (s.pop.foundUnread = true → s'.pop.foundUnread = true) := by
  obtain ⟨k, p⟩ := s
  match p, a, h with
  | .idle, .loadHead, rfl => exact ⟨rfl, nofun, rfl, nofun⟩
  | .idle, .loadTail, rfl => exact ⟨rfl, nofun, rfl, nofun⟩
  | .head head, .loadTail, h =>
    simp only [popAccess] at h
    split at h
    · cases h
    · cases h
      exact ⟨rfl, nofun, rfl, nofun⟩
  | .tail tail, .loadHead, h =>
    simp only [popAccess] at h
    split at h
    · cases h
    · cases h
      exact ⟨rfl, nofun, rfl, nofun⟩
  | .nonEmpty, .loadTail, rfl => exact ⟨rfl, nofun, rfl, fun _ => rfl⟩
  | .index tail, .loadSlot, rfl => exact ⟨rfl, nofun, rfl, fun _ => rfl⟩
  | .slot scancode, .loadTail, rfl => exact ⟨rfl, nofun, rfl, fun _ => rfl⟩

/-- What the last access does. -/
theorem popAccess_answered (h : popAccess s a = some (some c, s')) :
    s'.pop = .idle ∧ (s.pop.foundUnread = true → ∃ tail, s.pop = .next c tail) := by
  obtain ⟨k, p⟩ := s
  match p, a, h with
  | .head head, .loadTail, h =>
    simp only [popAccess] at h
    split at h
    · cases h
      exact ⟨rfl, nofun⟩
    · cases h
  | .tail tail, .loadHead, h =>
    simp only [popAccess] at h
    split at h
    · cases h
      exact ⟨rfl, nofun⟩
    · cases h
  | .next scancode tail, .storeTail, h =>
    cases h
    exact ⟨rfl, fun _ => ⟨tail, rfl⟩⟩

theorem Unanswered.of_snoc {e : KbdEvent} (h : Unanswered (es ++ [e])) : Unanswered es ∧ ∀ a c, e ≠ .access a (some c) :=
  ⟨fun a c hmem => h a c (List.mem_append_left _ hmem), fun a c he =>
    h a c (List.mem_append_right _ (List.mem_singleton.mpr he.symm))⟩

/-- Each access takes one of those left. -/
theorem Unanswered.left (hno : Unanswered es) (h : Steps KbdStep s es s') :
    s'.pop.left + es.countP KbdEvent.isAccess = s.pop.left := by
  induction h with
  | nil => rfl
  | @snoc es t e u _ he ih =>
    obtain ⟨hes, hlast⟩ := hno.of_snoc
    have ih := ih hes
    rw [List.countP_append]
    cases e with
    | push c b =>
      obtain ⟨-, -, rfl⟩ := he
      exact ih
    | access a answer =>
      cases answer with
      | some c => exact absurd rfl (hlast a c)
      | none =>
        have hleft := (popAccess_unanswered he).1
        have hone : [KbdEvent.access a none].countP KbdEvent.isAccess = 1 := rfl
        omega

theorem KbdInv.nonEmpty (inv : KbdInv es s) (hfound : s.pop.foundUnread = true) : s.ring.head ≠ s.ring.tail := by
  have hpop := inv.pop
  cases hp : s.pop with
  | idle | head | tail =>
    rw [hp] at hfound
    cases hfound
  | nonEmpty =>
    rw [hp] at hpop
    exact hpop
  | index | slot | next =>
    rw [hp] at hpop
    exact hpop.1

theorem KbdInv.unread_head (inv : KbdInv es s) (hne : s.ring.head ≠ s.ring.tail) :
    s.ring.unread.head? = some (s.ring.buffer s.ring.tail.toNat) := by
  rw [unread_pop inv.head_lt inv.tail_lt hne]
  rfl

/-- Until it answers, the scancode that was the oldest when the ring was found
not empty stays so. -/
theorem KbdInv.unanswered {es' : List KbdEvent} (inv : KbdInv es s) (hfound : s.pop.foundUnread = true)
    (h : Steps KbdStep s es' s') (hno : Unanswered es') :
    KbdInv (es ++ es') s' ∧ s'.pop.foundUnread = true ∧ s'.ring.unread.head? = s.ring.unread.head? := by
  induction h with
  | nil => exact ⟨by rwa [List.append_nil], hfound, rfl⟩
  | @snoc es' t e u _ he ih =>
    obtain ⟨hes, hlast⟩ := hno.of_snoc
    obtain ⟨inv', hfound', hhead⟩ := ih hes
    refine ⟨by rw [← List.append_assoc]; exact inv'.step he, ?_⟩
    cases e with
    | push c b =>
      obtain ⟨-, -, rfl⟩ := he
      refine ⟨hfound', ?_⟩
      rw [unread_push inv'.head_lt inv'.tail_lt, List.head?_append, inv'.unread_head (inv'.nonEmpty hfound'), ← hhead,
        inv'.unread_head (inv'.nonEmpty hfound')]
      rfl
    | access a answer =>
      cases answer with
      | some c => exact absurd rfl (hlast a c)
      | none =>
        obtain ⟨-, -, hring, hstill⟩ := popAccess_unanswered he
        exact ⟨hstill hfound', by rw [hring, hhead]⟩

theorem KbdInv.delivers (inv : KbdInv es s) : PopDelivers s where
  enabled := popAccess_enabled s
  ends a answer s' h := by
    cases answer with
    | none => exact ⟨fun he => absurd he (popAccess_unanswered h).2.1, fun hne => absurd rfl hne⟩
    | some c => exact ⟨nofun, fun _ => (popAccess_answered h).1⟩
  bounded es' s' h hno := by
    have hleft := hno.left h
    have hfrom := s.pop.left_bounds
    have hto := s'.pop.left_bounds
    omega
  oldest hfound := by
    refine ⟨_, inv.unread_head (inv.nonEmpty hfound), fun es' a answer s' h hno => ?_⟩
    obtain ⟨t, hrun, hlast⟩ := h.of_snoc
    obtain ⟨inv', hfound', hhead⟩ := inv.unanswered hfound hrun hno
    obtain ⟨tail, hnext⟩ := (popAccess_answered hlast).2 hfound'
    -- what was loaded from the slot is the oldest scancode
    have hslot := inv'.pop
    rw [hnext] at hslot
    rw [inv'.unread_head hslot.1, inv.unread_head (inv.nonEmpty hfound), ← hslot.2.1] at hhead
    exact Option.some.inj hhead

/-- A `kbd_pop` that is not interrupted is the sequence of its accesses. -/
theorem kbdPop_accesses (k : Keyboard) : ∃ accesses : List PopAccess,
    accesses.foldlM (fun (r : Option UInt8 × KbdState) a => popAccess r.2 a) (none, ⟨k, .idle⟩) =
      some (some (kbdPop k).1, ⟨(kbdPop k).2, .idle⟩) := by
  by_cases hempty : k.head = k.tail
  · exact ⟨[.loadHead, .loadTail], by simp [popAccess, kbdPop, hempty]⟩
  · exact ⟨[.loadHead, .loadTail, .loadTail, .loadSlot, .loadTail, .storeTail], by simp [popAccess, kbdPop, hempty]⟩

/-- **The scancode ring is a queue.** Whatever interrupts fall between the
accesses of `kbd_pop`, the scancodes accepted are, in order, those returned and
then those in the ring; only a push onto 255 unread ones is dropped, and only
a `kbd_pop` that loaded `kbd_head` from an empty ring returns 0. Every other
ends, within six accesses, with the oldest scancode of those in the ring. -/
theorem keyboard_fifo (h : Steps KbdStep bootKbd es s) :
    (s.ring.head.toNat < 256 ∧ s.ring.tail.toNat < 256) ∧
    accepted es = returned es ++ s.ring.unread ∧
    (∀ es₁ c es₂, es = es₁ ++ .push c false :: es₂ → (accepted es₁).length = (returned es₁).length + 255) ∧
    (∀ es₁ a es₂, es = es₁ ++ .access a (some 0) :: es₂ → EmptyAtHeadLoad (es₁ ++ [.access a (some 0)])) ∧
    PopDelivers s := by
  have inv := KbdInv.run h
  refine ⟨⟨inv.head_lt, inv.tail_lt⟩, inv.queue, ?_, ?_, inv.delivers⟩
  · rintro es₁ c es₂ rfl
    obtain ⟨t, t', ht, -, hfull, -⟩ := h.at
    have inv' := KbdInv.run ht
    rw [inv'.queue, List.length_append, unread_full inv'.head_lt hfull.symm]
  · rintro es₁ a es₂ rfl
    obtain ⟨t, t', ht, ha⟩ := h.at
    exact ((KbdInv.run ht).access ha).2 rfl

end Runs

/-- A scancode pushed after a `kbd_pop` has loaded the head of an empty ring is
the answer of the next one, in the middle of which another is pushed. -/
def interruptedPops : List KbdEvent :=
  [.access .loadHead none, .push 30 true, .access .loadTail (some 0), .access .loadTail none, .access .loadHead none,
    .access .loadTail none, .access .loadSlot none, .push 48 true, .access .loadTail none, .access .storeTail (some 30)]

theorem keyboard_fifo_interrupted : ∃ s, Steps KbdStep bootKbd interruptedPops s ∧
    accepted interruptedPops = [30, 48] ∧ returned interruptedPops = [30] ∧
    accepted interruptedPops = returned interruptedPops ++ s.ring.unread ∧ PopDelivers s := by
  let k₁ := kbdPush bootKeyboard 30
  let k₂ := kbdPush k₁ 48
  have h₁ : KbdStep bootKbd (.access .loadHead none) ⟨bootKeyboard, .head 0⟩ := rfl
  have h₂ : KbdStep ⟨bootKeyboard, .head 0⟩ (.push 30 true) ⟨k₁, .head 0⟩ := ⟨by decide, by decide, rfl⟩
  have h₃ : KbdStep ⟨k₁, .head 0⟩ (.access .loadTail (some 0)) ⟨k₁, .idle⟩ := rfl
  have h₄ : KbdStep ⟨k₁, .idle⟩ (.access .loadTail none) ⟨k₁, .tail 0⟩ := rfl
  have h₅ : KbdStep ⟨k₁, .tail 0⟩ (.access .loadHead none) ⟨k₁, .nonEmpty⟩ := rfl
  have h₆ : KbdStep ⟨k₁, .nonEmpty⟩ (.access .loadTail none) ⟨k₁, .index 0⟩ := rfl
  have h₇ : KbdStep ⟨k₁, .index 0⟩ (.access .loadSlot none) ⟨k₁, .slot 30⟩ := rfl
  have h₈ : KbdStep ⟨k₁, .slot 30⟩ (.push 48 true) ⟨k₂, .slot 30⟩ := ⟨by decide, by decide, rfl⟩
  have h₉ : KbdStep ⟨k₂, .slot 30⟩ (.access .loadTail none) ⟨k₂, .next 30 0⟩ := rfl
  have h₁₀ : KbdStep ⟨k₂, .next 30 0⟩ (.access .storeTail (some 30)) ⟨{ k₂ with tail := 1 }, .idle⟩ := rfl
  have hrun : Steps KbdStep bootKbd interruptedPops ⟨{ k₂ with tail := 1 }, .idle⟩ :=
    Steps.nil.snoc h₁ |>.snoc h₂ |>.snoc h₃ |>.snoc h₄ |>.snoc h₅ |>.snoc h₆ |>.snoc h₇ |>.snoc h₈ |>.snoc h₉
      |>.snoc h₁₀
  obtain ⟨-, hqueue, -, -, hdelivers⟩ := keyboard_fifo hrun
  exact ⟨_, hrun, rfl, rfl, hqueue, hdelivers⟩

end Tinos
