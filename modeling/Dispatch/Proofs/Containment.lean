import Dispatch.Proofs.Handled

/-!
# Faults that a caller is told of

Whoever calls the machine is told of most faults as errors.  The exceptions are sums that
do not fit words, and calls that do not end.  Words are read, written and moved one after
the other, and each of them is mapped before the next address is computed: so no walk over
memory leaves the address space while memory is not exhausted, wherever it starts.  Hence
calling an implementation never ends with anything but an error, whatever words it is
called with.

## Main definitions

* `Fault.Caught`, `Fault.Runaway` — errors, and the exceptions.
* `World.Contained` — steps that end with faults of one kind only.

## Main results

* `Memory.ends_takeFrom_caught` and its companions — walks over memory.
* `World.careful_invokeNative` — calling an implementation.
-/

namespace Dispatch

open Attempt

/-- The caller is told of the fault as an error. -/
def Fault.Caught (f : Fault) : Prop := ∃ cause, f = .machine cause

/-- The fault stops the machine: a number that does not fit, or calls without end. -/
inductive Fault.Runaway : Fault → Prop
  | overflow (operation : Overflow) : Runaway (.trap (.overflow operation))
  | endless : Runaway (.trap .endless)

/-- The fault is one of those. -/
def Fault.Loose (f : Fault) : Prop := f.Caught ∨ f.Runaway

/-! ### Packing -/

namespace Schema

variable {schema : Schema} {f : Fault}

/-- Running code counts the words before it unpacks them. -/
theorem decode_caught {native : List Word} {index : Nat}
    (h : schema.decode native index = .error f) : f.Caught := by
  unfold decode at h
  split at h
  · cases h
    exact ⟨_, rfl⟩
  · next hcount =>
    cases schema with
    | indirect components => simp [isIndirect] at hcount
    | direct components words =>
      simp [isIndirect, nativeKinds] at hcount
      simp [fromNative, Schema.words, hcount, pure, Except.pure, bind, Except.bind] at h

/-- Running code counts the components before it packs them. -/
theorem encode_caught {values : List Word} (h : schema.encode values = .error f) :
    f.Caught := by
  unfold encode at h
  split at h
  · cases h
    exact ⟨_, rfl⟩
  · next hcount =>
    cases schema with
    | indirect components => simp [isIndirect] at hcount
    | direct components words =>
      simp [isIndirect] at hcount
      simp [toNative, Schema.words, hcount, pure, Except.pure, bind, Except.bind] at h

end Schema

/-! ### Walks over memory -/

namespace Memory

variable {m : Memory} {base a : Word} {f : Fault}

theorem read_caught (h : m.read a = .error f) : f.Caught := by
  unfold read at h
  split at h
  · split at h
    · cases h
    · cases h
    · cases h
      exact ⟨_, rfl⟩
  · cases h
    exact ⟨_, rfl⟩

/-- Behind a mapped word the walk goes on inside the address space. -/
theorem Sound.next_fits (hm : m.Sound) (hroom : m.next.toNat ≤ 2 ^ 48) {start : Nat}
    (hstart : base.toNat + 8 * start < 2 ^ 64)
    (hmapped : m.isMapped (base.plus (8 * start)) = true) :
    base.toNat + 8 * (start + 1) < 2 ^ 64 := by
  have hlt := hm.lt_next_of_isMapped hmapped
  rw [Word.toNat_plus hstart] at hlt
  omega

theorem readFrom_caught (hm : m.Sound) (hroom : m.next.toNat ≤ 2 ^ 48) {start count : Nat}
    (hstart : base.toNat + 8 * start < 2 ^ 64) (h : m.readFrom base start count = .error f) :
    f.Caught := by
  induction count generalizing start with
  | zero => cases h
  | succ count ih =>
    rw [readFrom, wordAddress_eq hstart, ok_bind] at h
    rcases bind_eq_error.mp h with hread | ⟨first, hread, h⟩
    · exact read_caught hread
    · -- the next address is needed only now that a word in front of it is mapped
      have hnext := hm.next_fits hroom hstart (isMapped_of_read hread)
      rcases bind_eq_error.mp h with hrest | ⟨others, -, h⟩
      · exact ih hnext hrest
      · cases h

theorem ends_takeFrom_caught {count : Nat} :
    ∀ {m : Memory} {start : Nat}, m.Sound → m.next.toNat ≤ 2 ^ 48 →
      base.toNat + 8 * start < 2 ^ 64 →
      Step.Ends (takeFrom base start count) m (fun _ _ => True) fun f _ => f.Caught := by
  induction count with
  | zero =>
    intro m start hm hroom hstart
    trivial
  | succ count ih =>
    intro m start hm hroom hstart
    rw [takeFrom, wordAddress_eq hstart, Step.ends_bind, Step.ends_liftM_ok, Step.ends_bind]
    cases hread : m.read (base.plus (8 * start)) with
    | error fault => exact Step.ends_of_error (take_error hread) (read_caught hread)
    | ok first =>
      -- a word that was moved out is still mapped
      have hmapped := isMapped_of_read hread
      apply Step.ends_of_ok (take_ok hread)
      rw [Step.ends_bind]
      exact ih (hm.put hmapped none) hroom (hm.next_fits hroom hstart hmapped)

theorem ends_writeFrom_caught {words : List Word} :
    ∀ {m : Memory} {start : Nat}, m.Sound → m.next.toNat ≤ 2 ^ 48 →
      base.toNat + 8 * start < 2 ^ 64 →
      Step.Ends (writeFrom base start words) m (fun _ _ => True) fun f _ => f.Caught := by
  induction words with
  | nil =>
    intro m start hm hroom hstart
    trivial
  | cons word rest ih =>
    intro m start hm hroom hstart
    rw [writeFrom, wordAddress_eq hstart, Step.ends_bind, Step.ends_liftM_ok, Step.ends_bind]
    cases hmapped : m.isMapped (base.plus (8 * start)) with
    | false => exact Step.ends_of_error (write_error hmapped word) ⟨_, rfl⟩
    | true =>
      apply Step.ends_of_ok (write_ok hmapped word)
      exact ih (hm.put hmapped _) hroom (hm.next_fits hroom hstart hmapped)

/-- What was read once is read again as long as nobody writes to it. -/
theorem Evolves.readFrom_ok {m' : Memory} (h : m.Evolves (fun _ => False) m') (hm : m.Sound)
    {start count : Nat} {words : List Word} (hread : m.readFrom base start count = .ok words) :
    m'.readFrom base start count = .ok words := by
  induction count generalizing start words with
  | zero => exact hread
  | succ count ih =>
    rw [readFrom, Attempt.bind_eq_ok] at hread
    obtain ⟨a, ha, hread⟩ := hread
    rw [Attempt.bind_eq_ok] at hread
    obtain ⟨first, hfirst, hread⟩ := hread
    rw [Attempt.bind_eq_ok] at hread
    obtain ⟨others, hothers, hwords⟩ := hread
    rw [readFrom, ha, ok_bind, h.read_ok hm hfirst id, ok_bind, ih hothers]
    exact hwords

/-- A region ends inside the address space. -/
theorem Sound.end_lt (hm : m.Sound) {bytes : Nat} (h : m.regionSize? base = some bytes) :
    base.toNat + bytes < 2 ^ 64 := by
  rw [regionSize?, Option.map_eq_some_iff] at h
  obtain ⟨r, hr, rfl⟩ := h
  have hbase : r.base = base := by simpa using List.find?_some hr
  have hhigh := hm.high r (List.mem_of_find?_eq_some hr)
  have hextent := le_extent r.bytes
  have hnext := m.next.toNat_lt
  rw [hbase] at hhigh
  omega

end Memory

namespace World

variable {α β : Type} {u : Module} {refs : List Method} {w : World} {P : Fault → Prop}
  {x : Run α} {f : α → Run β} {s : Lowered} {frame : Word}

/-! ### Contained steps -/

/-- However the step ends, the code stays in place; and unless memory is exhausted, it ends
with no faults but these. -/
def Contained (u : Module) (refs : List Method) (P : Fault → Prop) (x : Run α) : Prop :=
  ∀ w, Settled u refs w →
    Step.Ends x w (fun _ w' => Settled u refs w') fun f w' => Exhausted w' ∨ P f

/-- The step ends with errors only. -/
abbrev Careful (u : Module) (refs : List Method) (x : Run α) : Prop :=
  Contained u refs Fault.Caught x

/-- What the step goes on with may rely on what it answered. -/
theorem contained_bind {Q : α → Prop}
    (hx : ∀ w, Settled u refs w →
      Step.Ends x w (fun a w' => Settled u refs w' ∧ Q a) fun f w' => Exhausted w' ∨ P f)
    (hf : ∀ a, Q a → Contained u refs P (f a)) : Contained u refs P (x >>= f) := by
  intro w hw
  rw [Step.ends_bind]
  apply Step.Ends.imp (hx w hw)
  · intro a w' h
    exact hf a h.2 w' h.1
  · intro _ _ h
    exact h

theorem Contained.bind (hx : Contained u refs P x) (hf : ∀ a, Contained u refs P (f a)) :
    Contained u refs P (x >>= f) := by
  apply contained_bind (Q := fun _ => True)
  · intro w hw
    exact Step.Ends.imp (hx w hw) (fun _ _ h => ⟨h, trivial⟩) fun _ _ h => h
  · intro a _
    exact hf a

theorem Contained.mono {P' : Fault → Prop} (hx : Contained u refs P x) (h : ∀ f, P f → P' f) :
    Contained u refs P' x := by
  intro w hw
  exact Step.Ends.imp (hx w hw) (fun _ _ h' => h') fun f _ h' => h'.imp_right (h f)

theorem Contained.loosen (hx : Careful u refs x) : Contained u refs Fault.Loose x :=
  hx.mono fun _ => .inl

/-- A tame step that ends well with room to spare ends well. -/
theorem Tame.contained (hx : Tame x)
    (h : ∀ w : World, w.memory.Sound → w.memory.next.toNat ≤ 2 ^ 48 →
      Step.Ends x w (fun _ _ => True) fun f _ => P f) : Contained u refs P x := by
  intro w hw
  have htame := hx w hw.grounded.linked
  -- memory only grows: what was exhausted before is exhausted after
  by_cases hfull : Exhausted w
  · apply Step.Ends.imp htame
    · intro _ _ hs
      exact hw.spares hs.1
    · intro _ _ hs
      exact .inl (hs.exhausted hfull)
  · have hends := h w hw.grounded.linked.sound (Nat.not_lt.mp hfull)
    apply Step.Ends.imp (Step.Ends.and htame hends)
    · intro _ _ hs
      exact hw.spares hs.1.1
    · intro _ _ hs
      exact .inr hs.2

theorem contained_pure (a : α) : Contained u refs P (pure a : Run α) := fun _ hw => hw

theorem contained_liftM {attempt : Attempt α} (h : ∀ f, attempt = .error f → P f) :
    Contained u refs P (liftM attempt : Run α) := by
  intro w hw
  rw [Step.ends_liftM]
  exact ⟨fun _ _ => hw, fun f hf => .inr (h f hf)⟩

theorem contained_ite {c : Prop} [Decidable c] {y : Run α} (hx : c → Contained u refs P x)
    (hy : ¬ c → Contained u refs P y) : Contained u refs P (if c then x else y) := by
  split
  · next h => exact hx h
  · next h => exact hy h

theorem careful_fail (cause : MachineError) : Careful u refs (fail cause : Run α) :=
  fun _ _ => .inr ⟨cause, rfl⟩

theorem careful_inMemory {question : Memory → Attempt α}
    (h : ∀ m : Memory, m.Sound → m.next.toNat ≤ 2 ^ 48 → ∀ f, question m = .error f → f.Caught) :
    Careful u refs (inMemory question) := by
  apply (tame_inMemory question).contained
  intro w hs hroom
  rw [ends_inMemory]
  exact ⟨fun _ _ => trivial, h w.memory hs hroom⟩

theorem careful_read (a : Word) : Careful u refs (read a) :=
  careful_inMemory fun _ _ _ _ hf => Memory.read_caught hf

theorem careful_readWords (a : Word) (count : Nat) :
    Careful u refs (inMemory fun m => m.readWords a count) := by
  apply careful_inMemory
  intro m hs hroom f hf
  exact Memory.readFrom_caught hs hroom (by simpa using a.toNat_lt) hf

theorem careful_write (a v : Word) : Careful u refs (write a v) := by
  apply (tame_write a v).contained
  intro w _ _
  rw [write, ends_withMemory]
  cases hmapped : w.memory.isMapped a with
  | true => exact Step.ends_of_ok (Memory.write_ok hmapped v) trivial
  | false => exact Step.ends_of_error (Memory.write_error hmapped v) ⟨_, rfl⟩

theorem careful_takeWords (a : Word) (count : Nat) :
    Careful u refs (withMemory (Memory.takeWords a count)) := by
  apply (tame_takeWords a count).contained
  intro w hs hroom
  rw [ends_withMemory]
  exact Memory.ends_takeFrom_caught hs hroom (by simpa using a.toNat_lt)

theorem ends_writeWords_caught (a : Word) (words : List Word) (hs : w.memory.Sound)
    (hroom : w.memory.next.toNat ≤ 2 ^ 48) :
    Step.Ends (withMemory (Memory.writeWords a words)) w (fun _ _ => True)
      fun f _ => f.Caught := by
  rw [ends_withMemory]
  exact Memory.ends_writeFrom_caught hs hroom (by simpa using a.toNat_lt)

/-- An address inside the address space. -/
theorem careful_addWord {base : Word} {bytes : Nat} (h : base.toNat + bytes < 2 ^ 64) :
    Careful u refs (liftM (addWord base (UInt64.ofNat bytes)) : Run Word) := by
  rw [addWord_ofNat h]
  exact contained_pure _

theorem careful_loadAt {base : Word} {offset : Nat} (h : base.toNat + offset < 2 ^ 64) :
    Careful u refs (loadAt base offset) :=
  (careful_addWord h).bind fun _ => careful_read _

/-! ### Flat arguments -/

theorem careful_decodeParams (carriers : List Carrier) (index : Nat) (native : List Word) :
    Careful u refs (decodeParams index native carriers) := by
  induction carriers generalizing index native with
  | nil => exact contained_pure _
  | cons c rest ih =>
    have hfirst : Careful u refs (decodeParam index native c.passing) := by
      unfold decodeParam
      cases c.passing with
      | direct schema =>
        exact (contained_liftM fun _ => Schema.decode_caught).bind fun _ => contained_pure _
      | indirect schema => exact (careful_takeWords _ _).bind fun _ => contained_pure _
      | address => exact contained_pure _
    exact hfirst.bind fun _ => (ih _ _).bind fun _ => contained_pure _

theorem careful_decodeFlat (s : Lowered) (native : List Word) :
    Careful u refs (decodeFlat s native) :=
  (careful_decodeParams _ _ _).bind fun _ => contained_pure _

theorem encodeAnswer_caught {resume : List Word} {answer : Answer} {f : Fault}
    (h : encodeAnswer s resume answer = .error f) : f.Caught := by
  cases answer with
  | stored => cases h
  | failed => cases h
  | direct words =>
    unfold encodeAnswer at h
    simp only at h
    split at h
    · rcases bind_eq_error.mp h with hencode | ⟨native, -, h⟩
      · exact Schema.encode_caught hencode
      · cases h
    · cases h
    · cases h

/-- A body answers, and its answer is stored where the caller wants it. -/
theorem careful_runBody (i : Implementation) (incoming : Incoming) :
    Careful u refs (runBody i incoming) := by
  apply (tame_runBody i incoming).contained
  intro w hs hroom
  rw [runBody, Step.ends_bind, Step.ends_modify, Step.ends_bind, Step.ends_get]
  split
  · split
    · rw [Step.ends_bind]
      apply Step.Ends.imp
      · apply ends_writeWords_caught
        · exact hs
        · exact hroom
      · intro _ _ _
        trivial
      · intro _ _ h
        exact h
    · trivial
  · split
    · next slot _ =>
      rw [Step.ends_bind, write, ends_withMemory]
      cases hmapped : w.memory.isMapped slot with
      | true => exact Step.ends_of_ok (Memory.write_ok hmapped _) trivial
      | false => exact Step.ends_of_error (Memory.write_error hmapped _) ⟨_, rfl⟩
    · exact ⟨_, rfl⟩

theorem careful_invokeFlat (i : Implementation) (native : List Word) :
    Careful u refs (invokeFlat i native) := by
  apply (careful_decodeFlat _ _).bind
  intro decoded
  apply (careful_runBody _ _).bind
  intro answer
  apply (contained_liftM fun _ => encodeAnswer_caught).bind
  intro results
  exact contained_ite (fun _ => contained_pure _) fun _ => careful_fail _

/-! ### Frames -/

/-- A frame that is large enough ends inside the address space. -/
theorem ends_checkFrame (frame : Word) (required : Nat) (hw : Settled u refs w) :
    Step.Ends (checkFrame frame required) w
      (fun _ w' => Settled u refs w' ∧ frame.toNat + required < 2 ^ 64)
      fun f w' => Exhausted w' ∨ f.Caught := by
  rw [checkFrame, Step.ends_bind, Step.ends_get]
  split
  · exact .inr ⟨_, rfl⟩
  · next actual hsize =>
    have hend := hw.grounded.linked.sound.end_lt hsize
    split
    · exact .inr ⟨_, rfl⟩
    · next hlarge => exact ⟨hw, by omega⟩

theorem careful_readField {offset : Option Nat}
    (h : ∀ o, offset = some o → frame.toNat + o < 2 ^ 64) :
    Careful u refs (readField frame offset) := by
  cases offset with
  | none => exact contained_pure _
  | some o =>
    apply (careful_addWord (h o rfl)).bind
    intro a
    exact (careful_read a).bind fun _ => contained_pure _

theorem careful_readWitness (h : frame.toNat + s.frameLayout.size < 2 ^ 64) :
    Careful u refs (readWitness s.frameLayout frame) := by
  unfold readWitness Lowered.frameLayout
  cases hwitness : s.witness with
  | false => exact contained_pure _
  | true =>
    have hend : s.witnessAt + 2 ≤ s.frameEnd := by
      simp [Lowered.frameEnd, Lowered.resultsAt, hwitness]
    simp only [Lowered.frameLayout] at h
    simp only [if_true]
    apply (careful_addWord (by omega)).bind
    intro _
    apply (careful_read _).bind
    intro _
    apply (careful_addWord (by omega)).bind
    intro _
    exact (careful_read _).bind fun _ => contained_pure _

theorem careful_decodeFields (carriers : List Carrier) (index start : Nat)
    (h : frame.toNat + 8 * (start + frameWords carriers) < 2 ^ 64) :
    Careful u refs (decodeFields frame index ((frameFields start carriers).zip carriers)) := by
  induction carriers generalizing index start with
  | nil => exact contained_pure _
  | cons c rest ih =>
    rw [frameWords_cons] at h
    have hfirst : Careful u refs
        (decodeField frame index (FrameField.ofPassing start c.passing) c.passing) := by
      cases c.passing with
      | direct schema =>
        apply (careful_addWord (by omega)).bind
        intro _
        exact (careful_readWords _ _).bind fun _ => contained_pure _
      | indirect schema =>
        apply (careful_addWord (by omega)).bind
        intro _
        apply (careful_read _).bind
        intro _
        exact (careful_takeWords _ _).bind fun _ => contained_pure _
      | address =>
        apply (careful_addWord (by omega)).bind
        intro _
        exact (careful_read _).bind fun _ => contained_pure _
    exact hfirst.bind fun _ => (ih _ _ (by omega)).bind fun _ => contained_pure _

/-- The fields of a frame are inside it. -/
theorem places_le (s : Lowered) :
    s.errorAt ≤ s.indirectAt ∧ s.indirectAt ≤ s.paramsAt ∧
      s.paramsAt + frameWords s.carriers = s.bindingsAt ∧ s.bindingsAt ≤ s.receiverAt ∧
      s.receiverAt ≤ s.resultsAt ∧ s.resultsAt ≤ s.frameEnd := by
  have hreceiver : s.receiverAt ≤ s.resultsAt := by
    rw [Lowered.resultsAt, Lowered.witnessAt, Nat.add_assoc]
    exact Nat.le_add_right _ _
  exact ⟨Nat.le_add_right _ _, Nat.le_add_right _ _, rfl, Nat.le_add_right _ _, hreceiver,
    Nat.le_add_right _ _⟩

/-- Reading a frame is possible only if the frame is inside the address space. -/
theorem ends_decodeFrame (hw : Settled u refs w) :
    Step.Ends (decodeFrame s s.frameLayout frame) w
      (fun _ w' => Settled u refs w' ∧ frame.toNat + s.frameLayout.size < 2 ^ 64)
      fun f w' => Exhausted w' ∨ f.Caught := by
  rw [decodeFrame, Step.ends_bind]
  apply Step.Ends.imp (ends_checkFrame frame _ hw)
  case hE => exact fun _ _ h => h
  intro _ w₁ h₁
  obtain ⟨hw₁, hend⟩ := h₁
  refine Step.Ends.imp ((?careful : Careful u refs _) w₁ hw₁) (fun _ _ h => ⟨h, hend⟩)
    fun _ _ h => h
  -- the check has found the end of the frame inside the address space, and no field is behind it
  have hsize : s.frameLayout.size = 8 * s.frameEnd := rfl
  have hplaces := places_le s
  apply (careful_readWitness hend).bind
  intro _
  apply (careful_addWord (show frame.toNat + 8 * s.receiverAt < 2 ^ 64 by omega)).bind
  intro _
  apply (careful_read _).bind
  intro _
  apply (careful_addWord (show frame.toNat + 8 * s.bindingsAt < 2 ^ 64 by omega)).bind
  intro _
  apply (careful_readWords _ _).bind
  intro _
  have herror : ∀ o, s.frameLayout.errorSlot = some o → frame.toNat + o < 2 ^ 64 := by
    intro o ho
    simp only [Lowered.frameLayout, Option.ite_none_right_eq_some, Option.some.injEq] at ho
    omega
  have hindirect : ∀ o, s.frameLayout.indirectReturn = some o → frame.toNat + o < 2 ^ 64 := by
    intro o ho
    simp only [Lowered.frameLayout, Option.ite_none_right_eq_some, Option.some.injEq] at ho
    omega
  apply (careful_readField herror).bind
  intro _
  apply (careful_readField hindirect).bind
  intro _
  apply (careful_decodeFields s.carriers 0 s.paramsAt (by omega)).bind
  intro _
  exact contained_pure _

theorem careful_writeWords (a : Word) (words : List Word) :
    Careful u refs (withMemory (Memory.writeWords a words)) :=
  (tame_writeWords a words).contained fun _ => ends_writeWords_caught a words

theorem careful_storeResult (h : frame.toNat + s.frameLayout.size < 2 ^ 64) (answer : Answer) :
    Careful u refs (storeResult s.frameLayout frame answer) := by
  have hsize : s.frameLayout.size = 8 * s.frameEnd := rfl
  have hplaces := places_le s
  unfold storeResult
  split
  · next words offset components hresults =>
    have hoffset : offset = 8 * s.resultsAt := by
      simp [Lowered.frameLayout] at hresults
      exact hresults.2.1.symm
    apply contained_ite
    · intro _
      apply (careful_addWord (by omega)).bind
      intro _
      exact (careful_writeWords _ _).bind fun _ => contained_pure _
    · intro _
      exact careful_fail _
  · exact contained_pure _

theorem careful_invokeAsync (i : Implementation) (frame : Word) :
    Careful u refs (invokeAsync i i.signature.frameLayout frame) := by
  rw [invokeAsync_eq]
  apply contained_bind fun _ => ends_decodeFrame
  intro incoming hend
  apply (careful_runBody i incoming).bind
  intro answer
  exact careful_storeResult hend answer

/-- Whatever words an implementation is called with, its caller is told of every fault. -/
theorem careful_invokeNative {i : Implementation} (hs : i.signature.Sound) (native : List Word) :
    Careful u refs (invokeNative i native) := by
  apply contained_ite
  · intro _
    rcases hs.frame with ⟨-, hframe⟩ | ⟨-, hframe, -⟩
    · rw [hframe]
      exact careful_invokeFlat i native
    · rw [hframe]
      exact careful_invokeAsync i _
  · intro _
    exact careful_fail _

end World

end Dispatch
