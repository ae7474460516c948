import Dispatch.Proofs.FrameArguments

/-!
# Implementations at work

A caller makes a place for the answer, the *landing*, before it calls: a slot for an
error and, if the result is passed by address, words for the result.  An
implementation that is called with its own signature decodes what was sent, runs its
body once, and leaves the answer in the landing and in its native results.  Everything
else in memory is as it was, except that the arguments are drained.

`Serves` says this of any callee, so that what calls it need not
know whether it is an implementation or a thunk in front of one.

## Main definitions

* `Outcome`, `Landing` — what a body answers, and where the answer goes.
* `World.FlatReady`, `World.FrameReady` — a call that is about to be made.
* `World.FrameAdded` — room for a frame, behind everything else.
* `World.Served` — what a call changes.
* `World.Serves` — a callee that answers as a body does, with flat arguments
  (`World.FlatServes`) or a frame (`World.FrameServes`).

## Main results

* `World.serves_invokeNative` — implementations.
-/

namespace Dispatch

open Attempt

/-- A signature that code and machine agree on: every value has a size, and the frame of
an asynchronous signature is the standard one. -/
structure Lowered.Sound (s : Lowered) : Prop where
  carriers : ∀ c ∈ s.carriers, c.Sound
  result : s.result.Sound
  frame : (s.convention.isAsync = false ∧ s.frame = none) ∨
    (s.convention.isAsync = true ∧ s.frame = some s.frameLayout ∧ 8 * s.frameEnd < Size.limit)

theorem Lowered.Sound.frame_of_flat {s : Lowered} (h : s.Sound)
    (hs : s.convention.isAsync = false) : s.frame = none := by
  rcases h.frame with ⟨-, hnone⟩ | ⟨hasync, -⟩
  · exact hnone
  · rw [hs] at hasync
    cases hasync

theorem Lowered.Sound.frame_of_async {s : Lowered} (h : s.Sound)
    (hs : s.convention.isAsync = true) :
    s.frame = some s.frameLayout ∧ 8 * s.frameEnd < Size.limit := by
  rcases h.frame with ⟨hflat, -⟩ | ⟨-, hframe⟩
  · rw [hs] at hflat
    cases hflat
  · exact hframe

/-! ### Outcomes -/

/-- What a body answers: the components of the result, or an error word. -/
abbrev Outcome := Except Word (List Word)

namespace Outcome

/-- The word that the error slot reads afterwards. -/
def errorWord : Outcome → Word
  | .ok _ => 0
  | .error e => e

/-- The words that a place for `count` words reads afterwards. -/
def stored (count : Nat) : Outcome → List Word
  | .ok words => words
  | .error _ => List.replicate count 0

/-- Where the answer goes. -/
def answer (byAddress : Bool) : Outcome → Answer
  | .ok words => if byAddress then .stored else .direct words
  | .error _ => .failed

/-- The outcome has the right number of words, `count` of them for a result that is
passed by address, and is an error only if the signature throws. -/
def Suits (s : Lowered) (count : Nat) : Outcome → Prop
  | .ok words => words.length = if s.hasIndirectReturn then count else s.resultScalars.length
  | .error _ => s.throws = true

instance (s : Lowered) (count : Nat) : (o : Outcome) → Decidable (o.Suits s count)
  | .ok words => inferInstanceAs (Decidable (words.length = _))
  | .error _ => inferInstanceAs (Decidable (s.throws = true))

end Outcome

namespace Lowered

/-- The native words of a result in registers; zeros if there is none. -/
def packResult (s : Lowered) : Outcome → List Word
  | .ok words =>
    match s.result.passing with
    | .direct schema => schema.pack words
    | .indirect _ => []
    | .address => []
  | .error _ => List.replicate s.resultKinds.length 0

/-- The words of a result in a frame; zeros if there is none. -/
def inlineResult (s : Lowered) (o : Outcome) : List Word :=
  if s.hasIndirectReturn then [] else o.stored s.resultScalars.length

/-- The words of a result in a frame that held `old` in their place: an error leaves
them alone. -/
def keptResult (s : Lowered) (o : Outcome) (old : List Word) : List Word :=
  match o with
  | .ok _ => s.inlineResult o
  | .error _ => old

theorem resultScalars_of_indirect {s : Lowered} (h : s.hasIndirectReturn = true) :
    s.resultScalars = [] := by
  unfold hasIndirectReturn at h
  unfold resultScalars
  cases hp : s.result.passing with
  | direct schema =>
    rw [hp] at h
    cases h
  | indirect schema => rfl
  | address => rfl

theorem length_inlineResult {s : Lowered} {o : Outcome} {count : Nat} (h : o.Suits s count) :
    (s.inlineResult o).length = s.resultScalars.length := by
  unfold inlineResult
  split
  · next hi =>
    rw [resultScalars_of_indirect hi]
    rfl
  · next hi =>
    cases o with
    | ok words =>
      rw [Outcome.Suits, if_neg hi] at h
      exact h
    | error e => rw [Outcome.stored, List.length_replicate]

/-- In a fresh frame it makes no difference whether an error leaves the result alone. -/
theorem keptResult_zeros (s : Lowered) (o : Outcome) :
    s.keptResult o (List.replicate s.resultScalars.length 0) = s.inlineResult o := by
  cases o with
  | ok words => rfl
  | error e =>
    by_cases hi : s.hasIndirectReturn = true
    · rw [keptResult, inlineResult, if_pos hi, resultScalars_of_indirect hi]
      rfl
    · rw [keptResult, inlineResult, if_neg hi, Outcome.stored]

theorem length_packResult {s : Lowered} (hr : s.result.Sound) {o : Outcome} :
    (s.packResult o).length = s.resultKinds.length := by
  cases o with
  | error e => rw [packResult, List.length_replicate]
  | ok words =>
    unfold packResult resultKinds
    cases hp : s.result.passing with
    | direct schema => exact (hr.packed schema hp).length_pack words
    | indirect schema => rfl
    | address => rfl

theorem length_results {s : Lowered} (hs : s.convention.isAsync = false) {resume : Option Word}
    (hresume : resume.isSome = s.convention.isCoroutine) :
    s.results.length = resume.toList.length + s.resultKinds.length := by
  rw [Parts.length_option_toList hresume]
  unfold results
  cases hc : s.convention with
  | async =>
    rw [hc] at hs
    cases hs
  | ordinary => simp [Convention.isCoroutine]
  | yieldOnce =>
    simp only [Convention.isCoroutine, if_true, List.length_cons]
    omega

end Lowered

/-- Packing an answer into native results. -/
theorem World.encodeAnswer_eq {s : Lowered} (hs : s.convention.isAsync = false)
    (hr : s.result.Sound) {resume : Option Word}
    (hresume : resume.isSome = s.convention.isCoroutine) {o : Outcome} {count : Nat}
    (ho : o.Suits s count) :
    encodeAnswer s resume.toList (o.answer s.hasIndirectReturn)
      = .ok (resume.toList ++ s.packResult o) := by
  have hlen := Lowered.length_results hs hresume
  cases o with
  | error e =>
    rw [Outcome.answer, encodeAnswer, Lowered.packResult, List.take_of_length_le (by omega),
      show s.results.length - resume.toList.length = s.resultKinds.length by omega]
    rfl
  | ok words =>
    unfold Outcome.Suits Lowered.resultScalars Lowered.hasIndirectReturn at ho
    unfold Outcome.answer Lowered.hasIndirectReturn Lowered.packResult
    cases hp : s.result.passing with
    | direct schema =>
      simp only [hp, Passing.byAddress, Bool.false_eq_true, if_false] at ho ⊢
      rw [encodeAnswer, hp]
      simp only [(hr.packed schema hp).encode ho, ok_bind]
      rfl
    | indirect schema =>
      simp only [Passing.byAddress, if_true, List.append_nil]
      rfl
    | address =>
      simp only [Passing.byAddress, if_true, List.append_nil]
      rfl

/-! ### Landings -/

/-- The place that a caller made for the answer. -/
structure Landing where
  errorSlot : Option Word
  indirectReturn : Option Word
  /-- The words at the result address. -/
  words : Nat
deriving DecidableEq

namespace Landing

variable {l : Landing} {m m' : Memory} {floor top : Nat} {o : Outcome} {changed : Nat → Prop}

/-- The addresses that belong to the landing. -/
def Covers (l : Landing) (n : Nat) : Prop :=
  (∃ a ∈ l.errorSlot, Memory.Within a 0 1 n) ∨ ∃ d ∈ l.indirectReturn, Memory.Within d 0 l.words n

/-- The landing is all zero and lies between `floor` and `top`, the error slot first. -/
structure Clear (l : Landing) (m : Memory) (floor top : Nat) : Prop where
  slot : ∀ a ∈ l.errorSlot, m.Holds a 0 [0] ∧ floor ≤ a.toNat ∧ a.toNat + 8 ≤ top
  place : ∀ d ∈ l.indirectReturn, m.Holds d 0 (List.replicate l.words 0) ∧
    floor ≤ d.toNat ∧ d.toNat + 8 * l.words ≤ top
  apart : ∀ a ∈ l.errorSlot, ∀ d ∈ l.indirectReturn, a.toNat + 8 ≤ d.toNat

/-- The landing holds an outcome. -/
structure Got (l : Landing) (o : Outcome) (m : Memory) : Prop where
  slot : ∀ a ∈ l.errorSlot, m.Holds a 0 [o.errorWord]
  place : ∀ d ∈ l.indirectReturn, m.Holds d 0 (o.stored l.words)

theorem Clear.range (h : l.Clear m floor top) {n : Nat} (hn : l.Covers n) :
    floor ≤ n ∧ n < top := by
  rcases hn with ⟨a, ha, h1, h2⟩ | ⟨d, hd, h1, h2⟩
  · obtain ⟨-, h3, h4⟩ := h.slot a ha
    omega
  · obtain ⟨-, h3, h4⟩ := h.place d hd
    omega

theorem Clear.evolves (h : l.Clear m floor top) (hm : m.Sound) (hev : m.Evolves changed m')
    (hc : ∀ n, l.Covers n → ¬ changed n) : l.Clear m' floor top where
  slot a ha := by
    obtain ⟨hholds, hrange⟩ := h.slot a ha
    exact ⟨hev.holds hm hholds fun n hn => hc n (Or.inl ⟨a, ha, hn⟩), hrange⟩
  place d hd := by
    obtain ⟨hholds, hrange⟩ := h.place d hd
    refine ⟨hev.holds hm hholds fun n hn => hc n (Or.inr ⟨d, hd, ?_⟩), hrange⟩
    rwa [List.length_replicate] at hn
  apart := h.apart

theorem Clear.mono (h : l.Clear m floor top) {top' : Nat} (ht : top ≤ top') :
    l.Clear m floor top' where
  slot a ha := by
    obtain ⟨hholds, h1, h2⟩ := h.slot a ha
    exact ⟨hholds, h1, by omega⟩
  place d hd := by
    obtain ⟨hholds, h1, h2⟩ := h.place d hd
    exact ⟨hholds, h1, by omega⟩
  apart := h.apart

theorem Got.evolves (h : l.Got o m) (hm : m.Sound) (hev : m.Evolves changed m')
    (hlen : l.indirectReturn.isSome → (o.stored l.words).length = l.words)
    (hc : ∀ n, l.Covers n → ¬ changed n) : l.Got o m' where
  slot a ha := hev.holds hm (h.slot a ha) fun n hn => hc n (Or.inl ⟨a, ha, hn⟩)
  place d hd := by
    refine hev.holds hm (h.place d hd) fun n hn => hc n (Or.inr ⟨d, hd, ?_⟩)
    rwa [hlen (Option.isSome_of_mem hd)] at hn

end Landing

theorem Outcome.Suits.length_stored {s : Lowered} {count : Nat} {o : Outcome}
    (h : o.Suits s count) (hi : s.hasIndirectReturn = true) : (o.stored count).length = count := by
  cases o with
  | ok words =>
    rw [Outcome.Suits, if_pos hi] at h
    exact h
  | error e => rw [Outcome.stored, List.length_replicate]

/-- The landing of a call with these parts. -/
def Parts.landing (parts : Parts Word) (count : Nat) : Landing :=
  ⟨parts.errorSlot, parts.indirectReturn, count⟩

/-! ### Running a body -/

namespace World

variable {w w' : World} {i : Implementation} {s : Lowered} {o : Outcome} {count : Nat}

/-- The world after an invocation was logged. -/
def logged (w : World) (symbol : String) (inv : Invocation) : World :=
  { w with machine := { w.machine with log := w.machine.log ++ [(symbol, inv)] } }

/-- What the machine does with the outcome of a body. -/
def deliver (symbol : String) (errorSlot indirectReturn : Option Word) : Outcome → Run Answer
  | .ok words =>
    match indirectReturn with
    | some destination => do
      withMemory (Memory.writeWords destination words)
      return .stored
    | none => return .direct words
  | .error error =>
    match errorSlot with
    | some slot => do
      write slot error
      return .failed
    | none => fail (.unhandledError symbol)

theorem runBody_eq (i : Implementation) (inc : Incoming) (w : World) :
    runBody i inc w = deliver i.symbol inc.errorSlot inc.indirectReturn
      (i.body inc.invocation w.memory) (w.logged i.symbol inc.invocation) := by
  rw [runBody, Step.bind_of_ok (Step.run_modify _), Step.bind_of_ok Step.run_get]
  rfl

/-- The landing gets the outcome. -/
theorem deliver_ok {l : Landing} {floor top : Nat} (symbol : String) (hw : w.memory.Sound)
    (hclear : l.Clear w.memory floor top) (herror : l.errorSlot.isSome = s.throws)
    (hindirect : l.indirectReturn.isSome = s.hasIndirectReturn) (ho : o.Suits s l.words) :
    ∃ m', deliver symbol l.errorSlot l.indirectReturn o w
        = .ok (o.answer s.hasIndirectReturn) (w.setMemory m') ∧
      w.memory.Evolves l.Covers m' ∧ l.Got o m' ∧ m'.next = w.memory.next := by
  obtain ⟨slot, place, count⟩ := l
  cases o with
  | ok words =>
    cases place with
    | none =>
      rw [← hindirect]
      exact ⟨w.memory, rfl, .refl _ _, ⟨fun a ha => (hclear.slot a ha).1, by simp⟩, rfl⟩
    | some d =>
      have hplace := (hclear.place d rfl).1
      have hlen : words.length = (List.replicate count (0 : Word)).length := by
        rw [List.length_replicate]
        exact ho.length_stored hindirect.symm
      obtain ⟨m', hsplice, hev, hholds, -, hnext⟩ :=
        Memory.Holds.splice (a := []) (c := []) hw (by simpa using hplace) hlen
      have hwrite : withMemory (Memory.writeWords d words) w = .ok () (w.setMemory m') :=
        withMemory_ok hsplice
      rw [← hindirect]
      refine ⟨m', ?_, hev.mono ?_, ⟨?_, ?_⟩, hnext⟩
      · rw [deliver, Step.bind_of_ok hwrite]
        rfl
      · rintro n - hn
        refine Or.inr ⟨d, rfl, ?_⟩
        rwa [hlen, List.length_replicate] at hn
      · intro a ha
        have hapart := hclear.apart a ha d rfl
        refine hev.holds hw (hclear.slot a ha).1 ?_
        rintro n ⟨h1, h2⟩ ⟨h3, h4⟩
        simp only [List.length_singleton, List.length_nil] at h2 h3
        omega
      · intro d' hd'
        cases hd'
        rw [List.nil_append, List.append_nil] at hholds
        exact hholds
  | error e =>
    cases slot with
    | none =>
      rw [ho] at herror
      cases herror
    | some a =>
      have hslot := (hclear.slot a rfl).1
      have hread := hslot.read
      rw [Nat.mul_zero, Word.plus_zero] at hread
      have hmapped := Memory.isMapped_of_read hread
      have hwrite : write a e w = .ok () (w.setMemory (w.memory.put a (some e))) :=
        withMemory_ok (Memory.write_ok hmapped e)
      refine ⟨w.memory.put a (some e), ?_, Memory.evolves_put hmapped _ (Or.inl ⟨a, rfl, ?_⟩),
        ⟨?_, ?_⟩, rfl⟩
      · rw [deliver, Step.bind_of_ok hwrite]
        rfl
      · exact ⟨by omega, by omega⟩
      · intro a' ha'
        cases ha'
        refine ⟨hslot.room, fun k v hv => ?_⟩
        cases k with
        | succ k => cases hv
        | zero =>
          cases hv
          rw [Nat.mul_zero, Word.plus_zero]
          exact Memory.read_put_self hmapped e
      · intro d hd
        have hapart := hclear.apart a rfl d hd
        have hev : w.memory.Evolves (fun n => n = a.toNat) (w.memory.put a (some e)) :=
          Memory.evolves_put hmapped _ rfl
        refine hev.holds hw (hclear.place d hd).1 ?_
        rintro n ⟨h1, -⟩ rfl
        omega

/-! ### Calls that are served -/

/-- The world later, when nothing that was there before has changed. -/
structure After (w w' : World) : Prop where
  steady : Steady w w'
  evolves : w.memory.Evolves (fun _ => False) w'.memory

theorem After.then {w'' : World} {changed : Nat → Prop} (h : After w w') (hs : Steady w' w'')
    (hev : w'.memory.Evolves changed w''.memory)
    (hc : ∀ n, n < w.memory.next.toNat → ¬ changed n) : After w w'' :=
  ⟨h.steady.trans hs, h.evolves.then hev fun n hn hch => hc n hn hch⟩

/-- What a call changes: the invocation is logged once, the landing gets the outcome,
the arguments are drained, and below `low` nothing changes but the landing and what
`extra` names. -/
structure Served (w w' : World) (symbol : String) (inv : Invocation) (o : Outcome) (l : Landing)
    (low : Nat) (extra : Nat → Prop) (spilled : List Word) : Prop where
  steady : Steady w w'
  log : w'.machine.log = w.machine.log ++ [(symbol, inv)]
  evolves : w.memory.Evolves (fun n => l.Covers n ∨ extra n ∨ low ≤ n) w'.memory
  got : l.Got o w'.memory
  drained : ∀ a ∈ spilled, w'.memory.isDrained a = true

/-- A call with flat arguments that is about to be made.  The landing lies above
`floor`, and the arguments above the landing. -/
structure FlatReady (s : Lowered) (m : Memory) (floor low high count : Nat) (parts : Parts Word)
    (args : List ArgValue) (spilled : List Word) : Prop where
  sound : m.Sound
  fits : parts.Fits s
  clear : (parts.landing count).Clear m floor low
  floor_le : floor ≤ low
  carried : Carried Schema.InRegisters m low high s.carriers args parts.params spilled
  high_le : high ≤ m.next.toNat

/-- A call with a frame that is about to be made, whose result field holds `old`.  The
landing lies above `floor`, the frame above the landing, and the arguments above the
frame. -/
structure FrameReady (s : Lowered) (m : Memory) (floor low high count : Nat) (frame : Word)
    (parts : Parts Word) (args : List ArgValue) (spilled old : List Word) : Prop where
  sound : m.Sound
  owns : ∃ bytes, m.Owns frame bytes ∧ 8 * s.frameEnd ≤ bytes
  inFrame : parts.InFrame s m frame old
  clear : (parts.landing count).Clear m floor frame.toNat
  floor_le : floor ≤ frame.toNat
  below : frame.toNat + 8 * s.frameEnd ≤ low
  carried : Carried Schema.InFrame m low high s.carriers args parts.params spilled
  high_le : high ≤ m.next.toNat

theorem FlatReady.low_le {m : Memory} {floor low high : Nat} {parts : Parts Word}
    {args : List ArgValue} {spilled : List Word}
    (h : FlatReady s m floor low high count parts args spilled) : low ≤ m.next.toNat :=
  Nat.le_trans h.carried.le h.high_le

theorem FrameReady.low_le {m : Memory} {floor low high : Nat} {frame : Word} {parts : Parts Word}
    {args : List ArgValue} {spilled old : List Word}
    (h : FrameReady s m floor low high count frame parts args spilled old) : low ≤ m.next.toNat :=
  Nat.le_trans h.carried.le h.high_le

theorem FrameReady.low_lt {m : Memory} {floor low high : Nat} {frame : Word} {parts : Parts Word}
    {args : List ArgValue} {spilled old : List Word}
    (h : FrameReady s m floor low high count frame parts args spilled old) : low < 2 ^ 64 :=
  Nat.lt_of_le_of_lt h.low_le m.next.toNat_lt

/-- Memory `m'` is `m` with a frame of zeros behind everything that was there. -/
structure FrameAdded (s : Lowered) (m m' : Memory) : Prop where
  sound : m'.Sound
  evolves : m.Evolves (fun _ => False) m'
  owns : m'.Owns m.next (8 * s.frameEnd)
  inFrame : (Parts.blank s).InFrame s m' m.next (List.replicate s.resultScalars.length 0)
  below : m.next.toNat + 8 * s.frameEnd ≤ m'.next.toNat

/-- Making room for a frame. -/
theorem ends_allocFrame (hlimit : 8 * s.frameEnd < Size.limit) (hw : w.memory.Sound)
    {Q : Word → World → Prop}
    (hQ : ∀ m, FrameAdded s w.memory m → Q w.memory.next (w.setMemory m)) :
    Step.Ends (withMemory (Memory.alloc (8 * s.frameEnd))) w Q fun _ w' => Exhausted w' := by
  refine ends_alloc hlimit fun hroom => hQ _ ?_
  have hev : w.memory.Evolves (fun _ => False) (w.memory.allocated (8 * s.frameEnd)) :=
    Memory.evolves_allocated hroom
  have hs := hev.sound hw
  have howns := Memory.owns_allocated w.memory (8 * s.frameEnd)
  have hlt := howns.lt_next hs
  exact ⟨hs, hev, howns, Parts.inFrame_allocated hw hroom, by omega⟩

/-- Filling the frame changes nothing that was there before it. -/
theorem FrameAdded.evolves_filled {m m₁ m₂ : Memory} (h : FrameAdded s m m₁)
    (hev : m₁.Evolves (Memory.Within m.next 0 s.frameEnd) m₂) :
    m.Evolves (fun _ => False) m₂ := by
  refine h.evolves.then hev ?_
  rintro n hn ⟨h1, -⟩
  omega

/-- A frame that has been filled is ready for a call. -/
theorem FrameAdded.ready {m m₁ m₂ : Memory} {floor : Nat} {parts : Parts Word}
    {args : List ArgValue} {encoded spilled old : List Word} (h : FrameAdded s m m₁) (hm : m.Sound)
    (hev : m₁.Evolves (Memory.Within m.next 0 s.frameEnd) m₂)
    (hin : (parts.withParams encoded).InFrame s m₂ m.next old)
    (hcarried : Carried Schema.InFrame m₂ m₁.next.toNat m₂.next.toNat s.carriers args encoded
      spilled)
    (hclear : (parts.landing count).Clear m floor m.next.toNat) (hfloor : floor ≤ m.next.toNat) :
    FrameReady s m₂ floor m₁.next.toNat m₂.next.toNat count m.next (parts.withParams encoded) args
      spilled old where
  sound := hev.sound h.sound
  owns := ⟨_, hev.owns h.owns, Nat.le_refl _⟩
  inFrame := hin
  clear := hclear.evolves hm (h.evolves_filled hev) fun _ _ h => h
  floor_le := hfloor
  below := h.below
  carried := hcarried
  high_le := Nat.le_refl _

/-- From `w₀` on, a call of `callee` with flat arguments for the invocation answers with
the outcome, unless memory is exhausted. -/
def FlatServes (callee : List Word → Run (List Word)) (s : Lowered) (w₀ : World) (symbol : String)
    (inv : Invocation) (o : Outcome) (count : Nat) : Prop :=
  ∀ (w : World) (parts : Parts Word) (low high : Nat) (spilled : List Word), After w₀ w →
    (parts.incoming inv.args).invocation = inv →
    FlatReady s w.memory w₀.memory.next.toNat low high count parts inv.args spilled →
    Step.Ends (callee parts.toList) w (fun results w' =>
      results = parts.resumeBuffer.toList ++ s.packResult o ∧
      w'.machine.suspensions = w.machine.suspensions ∧
      Served w w' symbol inv o (parts.landing count) low (fun _ => False) spilled)
      fun _ w' => Exhausted w'

/-- From `w₀` on, a call of `callee` with a frame for the invocation answers with the
outcome, after `hops` suspensions, unless memory is exhausted.  A result field that held
`old` holds `left old` afterwards. -/
def FrameServes (callee : List Word → Run (List Word)) (s : Lowered) (w₀ : World) (symbol : String)
    (inv : Invocation) (o : Outcome) (count hops : Nat) (left : List Word → List Word) : Prop :=
  ∀ (w : World) (frame : Word) (parts : Parts Word) (low high : Nat) (spilled old : List Word),
    After w₀ w → (parts.incoming inv.args).invocation = inv →
    FrameReady s w.memory w₀.memory.next.toNat low high count frame parts inv.args spilled old →
    Step.Ends (callee [frame]) w (fun results w' =>
      results = [] ∧ w'.machine.suspensions = w.machine.suspensions + hops ∧
      w'.memory.Holds frame s.resultsAt (left old) ∧
      Served w w' symbol inv o (parts.landing count) low
        (Memory.Within frame s.resultsAt s.resultScalars.length) spilled)
      fun _ w' => Exhausted w'

/-- A callee that answers calls with its signature as a body does.  In a fresh frame it
leaves the result, or zeros. -/
structure Serves (callee : List Word → Run (List Word)) (s : Lowered) (w₀ : World)
    (symbol : String) (inv : Invocation) (o : Outcome) (count hops : Nat)
    (left : List Word → List Word) : Prop where
  flat : s.convention.isAsync = false → hops = 0 ∧ FlatServes callee s w₀ symbol inv o count
  frame : s.convention.isAsync = true → FrameServes callee s w₀ symbol inv o count hops left
  fresh : left (List.replicate s.resultScalars.length 0) = s.inlineResult o

variable {w₀ : World} {inv : Invocation}

/-- What is left of memory after arguments were decoded: those that were spilled between
`low` and `high` are drained. -/
structure Decoded (m m' : Memory) (low high : Nat) (spilled : List Word) : Prop where
  evolves : m.Evolves (fun n => low ≤ n ∧ n < high) m'
  drained : ∀ a ∈ spilled, a.toNat < high ∧ a.toNat < m.next.toNat ∧ m'.isDrained a = true
  next : m'.next = m.next

/-- What was drained stays drained while nothing above `low` that was there changes. -/
theorem Decoded.isDrained {m m' m'' : Memory} {low high : Nat} {spilled : List Word}
    {changed : Nat → Prop} (h : Decoded m m' low high spilled) (hlow : ∀ a ∈ spilled, low ≤ a.toNat)
    (hev : m'.Evolves changed m'')
    (hchanged : ∀ n, low ≤ n → n < m.next.toNat → ¬ changed n) :
    ∀ a ∈ spilled, m''.isDrained a = true := by
  intro a ha
  obtain ⟨-, hlt, hdrained⟩ := h.drained a ha
  rw [← hdrained]
  exact hev.isDrained_eq (by rwa [h.next]) (hchanged _ (hlow a ha) hlt)

/-- What an implementation makes of an answer that belongs in its native results. -/
def answerFlat (i : Implementation) (resumeBuffer : Option Word) (answer : Answer) :
    Run (List Word) := do
  let results ← encodeAnswer i.signature resumeBuffer.toList answer
  if results.length = i.signature.results.length then return results
  else fail (.arity ("results of " ++ i.symbol) i.signature.results.length results.length)

/-- An implementation that is called with flat arguments runs its body once, on what was
sent. -/
theorem invokeNative_flat {parts : Parts Word} {args : List ArgValue} {floor low high : Nat}
    {spilled : List Word} (hs : i.signature.convention.isAsync = false)
    (hframe : i.signature.frame = none) (hc : ∀ c ∈ i.signature.carriers, c.Sound)
    (h : FlatReady i.signature w.memory floor low high count parts args spilled) :
    ∃ m, Decoded w.memory m low high spilled ∧
      invokeNative i parts.toList w = (do
        let answer ← deliver i.symbol parts.errorSlot parts.indirectReturn
          (i.body (parts.incoming args).invocation m)
        answerFlat i parts.resumeBuffer answer)
        ((w.setMemory m).logged i.symbol (parts.incoming args).invocation) := by
  obtain ⟨m, hrun, hev, hdrained, hnext⟩ := decodeAll_ok hc h.sound h.carried 0
  have hdecode : decodeFlat i.signature parts.toList w
      = .ok (parts.resumeBuffer, parts.incoming args) (w.setMemory m) := by
    rw [decodeFlat_toList h.fits, map_eq_pure_bind, Step.bind_of_ok hrun]
    rfl
  have hparams : parts.toList.length = i.signature.params.length := by
    rw [h.fits.length_toList, Lowered.params, hs]
    rfl
  refine ⟨m, ⟨hev, hdrained, hnext⟩, ?_⟩
  rw [invokeNative, if_pos hparams, hframe]
  simp only
  rw [invokeFlat, Step.bind_of_ok hdecode]
  simp only [bind, EStateM.bind, runBody_eq]
  rfl

/-- The answer of a body that was called with flat arguments. -/
theorem ends_answerFlat {m : Memory} {parts : Parts Word} {args : List ArgValue}
    {floor low high : Nat} {spilled : List Word} {E : Fault → World → Prop}
    (hs : i.signature.convention.isAsync = false) (hr : i.signature.result.Sound)
    (h : FlatReady i.signature w.memory floor low high count parts args spilled)
    (hdecoded : Decoded w.memory m low high spilled) (ho : o.Suits i.signature count) :
    Step.Ends (do
      let answer ← deliver i.symbol parts.errorSlot parts.indirectReturn o
      answerFlat i parts.resumeBuffer answer)
      ((w.setMemory m).logged i.symbol inv) (fun results w' =>
        results = parts.resumeBuffer.toList ++ i.signature.packResult o ∧
        w'.machine.suspensions = w.machine.suspensions ∧
        Served w w' i.symbol inv o (parts.landing count) low (fun _ => False) spilled) E := by
  have hclear : (parts.landing count).Clear m floor low :=
    h.clear.evolves h.sound hdecoded.evolves fun n hn hch => by
      have := (h.clear.range hn).2
      omega
  obtain ⟨m', hrun, hev, hgot, -⟩ := deliver_ok i.symbol
    (w := (w.setMemory m).logged i.symbol inv) (hdecoded.evolves.sound h.sound) hclear h.fits.error
    h.fits.indirect ho
  have hanswer := encodeAnswer_eq hs hr h.fits.resume ho
  have hlen : (parts.resumeBuffer.toList ++ i.signature.packResult o).length
      = i.signature.results.length := by
    rw [List.length_append, Lowered.length_packResult hr, Lowered.length_results hs h.fits.resume]
  rw [Step.ends_bind]
  refine Step.ends_of_ok hrun ?_
  rw [answerFlat, hanswer, Step.ends_bind, Step.ends_liftM_ok, if_pos hlen]
  refine ⟨rfl, rfl, ⟨rfl, rfl, rfl, rfl, rfl, rfl⟩, rfl, ?_, hgot, ?_⟩
  · exact (hdecoded.evolves.mono fun n _ h => Or.inr (Or.inr h.1)).then hev fun n _ h => Or.inl h
  · refine hdecoded.isDrained (fun a ha => h.carried.low_le a ha) hev fun n hn _ hcov => ?_
    have := (hclear.range hcov).2
    omega

/-- An implementation that is called with flat arguments. -/
theorem flatServes_invokeNative (hs : i.signature.convention.isAsync = false)
    (hframe : i.signature.frame = none) (hc : ∀ c ∈ i.signature.carriers, c.Sound)
    (hr : i.signature.result.Sound) (hbody : ∀ m, i.body inv m = o)
    (ho : o.Suits i.signature count) :
    FlatServes (invokeNative i) i.signature w₀ i.symbol inv o count := by
  intro w parts low high spilled _ hinv hready
  obtain ⟨m, hdecoded, hrun⟩ := invokeNative_flat hs hframe hc hready
  rw [hinv, hbody] at hrun
  unfold Step.Ends
  rw [hrun]
  exact ends_answerFlat hs hr hready hdecoded ho

/-- What an implementation does with an answer that belongs in its frame. -/
def storeResult (f : Frame) (frame : Word) (answer : Answer) : Run (List Word) :=
  match answer, f.results with
  | .direct words, some (.inline offset components) =>
    if words.length = components.length then do
      withMemory (Memory.writeWords (← addWord frame (UInt64.ofNat offset)) words)
      return []
    else fail (.arity "async results" components.length words.length)
  | _, _ => return []

theorem invokeAsync_eq (i : Implementation) (f : Frame) (frame : Word) :
    invokeAsync i f frame = (do
      let incoming ← decodeFrame i.signature f frame
      let answer ← runBody i incoming
      storeResult f frame answer) := rfl

theorem length_inlineAt (s : Lowered) : s.resultsAt + s.resultScalars.length = s.frameEnd := rfl

/-- The frame gets the result, or keeps what it had. -/
theorem storeResult_ok {frame : Word} {old : List Word} (hw : w.memory.Sound)
    (hroom : frame.toNat + 8 * s.frameEnd ≤ 2 ^ 64) (hold : old.length = s.resultScalars.length)
    (hheld : w.memory.Holds frame s.resultsAt old)
    (ho : o.Suits s count) :
    ∃ m', storeResult s.frameLayout frame (o.answer s.hasIndirectReturn) w
        = .ok [] (w.setMemory m') ∧
      w.memory.Evolves (Memory.Within frame s.resultsAt s.resultScalars.length) m' ∧
      m'.Holds frame s.resultsAt (s.keptResult o old) ∧ m'.next = w.memory.next := by
  have hend := length_inlineAt s
  have hempty : w.memory.Holds frame s.resultsAt [] :=
    ⟨by simp only [List.length_nil]; omega, by simp⟩
  cases o with
  | error e =>
    exact ⟨w.memory, by unfold storeResult Outcome.answer; rfl, .refl _ _, hheld, rfl⟩
  | ok words =>
    rw [Lowered.keptResult]
    by_cases hi : s.hasIndirectReturn = true
    · refine ⟨w.memory, by simp only [storeResult, Outcome.answer, hi, if_true]; rfl, .refl _ _,
        ?_, rfl⟩
      rw [Lowered.inlineResult, if_pos hi]
      exact hempty
    · rw [Outcome.Suits, if_neg hi] at ho
      rw [Lowered.inlineResult, if_neg hi, Outcome.stored, Outcome.answer, if_neg hi]
      by_cases hz : s.resultScalars.isEmpty = true
      · have hnil : words = [] := by
          rw [List.isEmpty_iff.mp hz] at ho
          exact List.eq_nil_of_length_eq_zero ho
        refine ⟨w.memory, ?_, .refl _ _, hnil ▸ hempty, rfl⟩
        simp only [storeResult, Lowered.frameLayout, hz, if_true]
        rfl
      · have hlen : words.length = old.length := by rw [ho, hold]
        obtain ⟨m', hsplice, hev, hholds, -, hnext⟩ :=
          Memory.Holds.splice (a := []) (c := []) hw (by simpa using hheld) hlen
        rw [List.nil_append, List.append_nil] at hholds
        have hwrite : withMemory (Memory.writeWords (frame.plus (8 * s.resultsAt)) words) w
            = .ok () (w.setMemory m') := by
          rw [Memory.writeWords_plus (by omega)]
          exact withMemory_ok hsplice
        have hne : s.resultScalars ≠ [] := fun h => hz (by rw [h]; rfl)
        have hpos := List.length_pos_iff.mpr hne
        refine ⟨m', ?_, hev.mono ?_, hholds, hnext⟩
        · simp only [storeResult, Lowered.frameLayout, hz, Bool.false_eq_true, if_false, ho, if_true]
          rw [addWord_index (by omega), Step.bind_of_ok Step.run_liftM_ok,
            Step.bind_of_ok hwrite]
          rfl
        · rintro n - ⟨h1, h2⟩
          simp only [List.length_nil] at h1 h2
          exact ⟨by omega, by omega⟩

/-- An implementation that is called with a frame runs its body once, on what was sent. -/
theorem invokeNative_frame {parts : Parts Word} {args : List ArgValue} {floor low high : Nat}
    {frame : Word} {spilled old : List Word} (hs : i.signature.convention.isAsync = true)
    (hframe : i.signature.frame = some i.signature.frameLayout)
    (h : FrameReady i.signature w.memory floor low high count frame parts args spilled old) :
    ∃ m, Decoded w.memory m low high spilled ∧
      invokeNative i [frame] w = (do
        let answer ← deliver i.symbol parts.errorSlot parts.indirectReturn
          (i.body (parts.incoming args).invocation m)
        storeResult i.signature.frameLayout frame answer)
        ((w.setMemory m).logged i.symbol (parts.incoming args).invocation) := by
  obtain ⟨bytes, howns, hbytes⟩ := h.owns
  obtain ⟨m, hrun, hev, hdrained, hnext⟩ := decodeFrame_ok h.sound h.inFrame howns hbytes h.below
    h.low_lt h.carried
  have hparams : [frame].length = i.signature.params.length := by
    rw [Lowered.params, hs]
    rfl
  refine ⟨m, ⟨hev, hdrained, hnext⟩, ?_⟩
  rw [invokeNative, if_pos hparams, hframe]
  simp only
  rw [invokeAsync_eq, List.headD_cons, Step.bind_of_ok hrun]
  simp only [bind, EStateM.bind, runBody_eq]
  rfl

/-- The answer of a body that was called with a frame. -/
theorem ends_storeResult {m : Memory} {parts : Parts Word} {args : List ArgValue}
    {floor low high : Nat} {frame : Word} {spilled old : List Word} {E : Fault → World → Prop}
    (h : FrameReady i.signature w.memory floor low high count frame parts args spilled old)
    (hdecoded : Decoded w.memory m low high spilled) (ho : o.Suits i.signature count) :
    Step.Ends (do
      let answer ← deliver i.symbol parts.errorSlot parts.indirectReturn o
      storeResult i.signature.frameLayout frame answer)
      ((w.setMemory m).logged i.symbol inv) (fun results w' =>
        results = [] ∧ w'.machine.suspensions = w.machine.suspensions ∧
        w'.memory.Holds frame i.signature.resultsAt (i.signature.keptResult o old) ∧
        Served w w' i.symbol inv o (parts.landing count) low
          (Memory.Within frame i.signature.resultsAt i.signature.resultScalars.length) spilled)
      E := by
  have hend := length_inlineAt i.signature
  have hbelow := h.below
  have hs₁ := hdecoded.evolves.sound h.sound
  have hclear : (parts.landing count).Clear m floor frame.toNat :=
    h.clear.evolves h.sound hdecoded.evolves fun n hn hch => by
      have := (h.clear.range hn).2
      omega
  have hin₁ := h.inFrame.evolves h.sound hdecoded.evolves (by rintro n ⟨-, h1⟩ ⟨h2, -⟩; omega)
  obtain ⟨m₂, hrun₂, hev₂, hgot₂, hnext₂⟩ := deliver_ok i.symbol
    (w := (w.setMemory m).logged i.symbol inv) hs₁ hclear h.inFrame.fits.error
    h.inFrame.fits.indirect ho
  have hs₂ := hev₂.sound hs₁
  have hin₂ := hin₁.evolves hs₁ hev₂ (by
    rintro n ⟨h1, -⟩ hn
    have := (hclear.range hn).2
    omega)
  obtain ⟨m₃, hrun₃, hev₃, hholds₃, -⟩ := storeResult_ok
    (w := ((w.setMemory m).logged i.symbol inv).setMemory m₂) hs₂ h.inFrame.room
    h.inFrame.length_results hin₂.segments.2.2.2.2.2.2 ho
  rw [Step.ends_bind]
  refine Step.ends_of_ok hrun₂ (Step.ends_of_ok hrun₃ ?_)
  refine ⟨rfl, rfl, hholds₃, ⟨rfl, rfl, rfl, rfl, rfl, rfl⟩, rfl, ?_, ?_, ?_⟩
  · refine ((hdecoded.evolves.mono fun n _ h => Or.inr (Or.inr h.1)).then hev₂
      fun n _ h => Or.inl h).then hev₃ fun n _ h => Or.inr (Or.inl h)
  · refine hgot₂.evolves hs₂ hev₃ (fun hi => ?_) ?_
    · exact ho.length_stored (by rw [← h.inFrame.fits.indirect]; exact hi)
    · rintro n hn ⟨h1, -⟩
      have := (hclear.range hn).2
      omega
  · have hev : m.Evolves (fun n => (parts.landing count).Covers n ∨
        Memory.Within frame i.signature.resultsAt i.signature.resultScalars.length n) m₃ :=
      (hev₂.mono fun _ _ h => Or.inl h).trans (hev₃.mono fun _ _ h => Or.inr h)
    refine hdecoded.isDrained (fun a ha => h.carried.low_le a ha) hev ?_
    rintro n hn - (hcov | ⟨-, h2⟩)
    · have := (hclear.range hcov).2
      omega
    · omega

/-- An implementation that is called with a frame. -/
theorem frameServes_invokeNative (hs : i.signature.convention.isAsync = true)
    (hframe : i.signature.frame = some i.signature.frameLayout)
    (hbody : ∀ m, i.body inv m = o) (ho : o.Suits i.signature count) :
    FrameServes (invokeNative i) i.signature w₀ i.symbol inv o count 0
      (i.signature.keptResult o) := by
  intro w frame parts low high spilled old _ hinv hready
  obtain ⟨m, hdecoded, hrun⟩ := invokeNative_frame hs hframe hready
  rw [hinv, hbody] at hrun
  unfold Step.Ends
  rw [hrun]
  exact ends_storeResult hready hdecoded ho

/-- An implementation that is called with its own signature. -/
theorem serves_invokeNative (hs : i.signature.Sound) (hbody : ∀ m, i.body inv m = o)
    (ho : o.Suits i.signature count) :
    Serves (invokeNative i) i.signature w₀ i.symbol inv o count 0
      (i.signature.keptResult o) where
  flat hconv := ⟨rfl, flatServes_invokeNative hconv (hs.frame_of_flat hconv) hs.carriers
    hs.result hbody ho⟩
  frame hconv := frameServes_invokeNative hconv (hs.frame_of_async hconv).1 hbody ho
  fresh := i.signature.keptResult_zeros o

end World

end Dispatch
