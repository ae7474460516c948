import Dispatch.Proofs.Carried
import Dispatch.Proofs.Thunk.Async

/-!
# Arguments in frames

A frame is one run of words, so filling a field replaces a part of that run and keeps
the rest, in whatever order the fields are filled.  A thunk and an implementation read
a frame in different orders and get the same parts.

## Main definitions

* `Parts.InFrame` — a frame that holds these parts, with room for results.

## Main results

* `World.ends_fillFrame` — filling a frame of its own.
* `World.fetchFrame_ok`, `World.decodeFrame_ok` — the two ways to read a frame.
-/

namespace Dispatch

open Attempt

namespace World

variable {w : World} {base frame v : Word} {start j : Nat} {words a b c : List Word}

/-! ### Words at offsets -/

theorem addWord_index (h : base.toNat + 8 * (start + 1) ≤ 2 ^ 64) :
    addWord base (UInt64.ofNat (8 * start)) = .ok (base.plus (8 * start)) :=
  addWord_ofNat (by omega)

theorem loadAt_ok (h : w.memory.Holds base start [v]) : loadAt base (8 * start) w = .ok v w := by
  rw [loadAt, addWord_index h.room, Step.bind_of_ok Step.run_liftM_ok]
  exact read_ok h.read

theorem loadAll_ok (h : w.memory.Holds base start words) {count : Nat}
    (hc : words.length = count) : loadAll base (8 * start) count w = .ok words w := by
  subst hc
  induction words generalizing start with
  | nil => rfl
  | cons v rest ih =>
    rw [← List.singleton_append, Memory.holds_append] at h
    have hrest := ih h.2
    rw [List.length_singleton, show 8 * (start + 1) = 8 * start + wordBytes by
      rw [wordBytes]; omega] at hrest
    rw [List.length_cons, loadAll, Step.bind_of_ok (loadAt_ok h.1), Step.bind_of_ok hrest]
    rfl

theorem readField_ok {o : Option Word} {present : Bool} (ho : o.isSome = present)
    (h : w.memory.Holds base start o.toList) :
    readField base (if present = true then some (8 * start) else none) w = .ok o w := by
  subst ho
  cases o with
  | none => rfl
  | some v =>
    have hload : (do read (← addWord base (UInt64.ofNat (8 * start))) : Run Word) w = .ok v w :=
      loadAt_ok h
    simp only [Option.isSome_some, if_true, readField]
    rw [← bind_assoc, Step.bind_of_ok hload]
    rfl

theorem readWitness_ok {s : Lowered} {o : Option (Word × Word)} (ho : o.isSome = s.witness)
    (h : w.memory.Holds frame s.witnessAt (Parts.witnessList o)) :
    readWitness s.frameLayout frame w = .ok o w := by
  unfold readWitness Lowered.frameLayout
  rw [← ho]
  cases o with
  | none => rfl
  | some wt =>
    have h' : w.memory.Holds frame s.witnessAt ([wt.1] ++ [wt.2]) := h
    rw [Memory.holds_append] at h'
    have h₁ : (do read (← addWord frame (UInt64.ofNat (8 * s.witnessAt))) : Run Word) w
        = .ok wt.1 w := loadAt_ok h'.1
    have h₂ : (do read (← addWord frame (UInt64.ofNat (8 * (s.witnessAt + 1)))) : Run Word) w
        = .ok wt.2 w := loadAt_ok h'.2
    simp only [Option.isSome_some, if_true]
    rw [← bind_assoc, Step.bind_of_ok h₁, ← bind_assoc, Step.bind_of_ok h₂]
    rfl

/-- Storing over a part of what memory holds. -/
theorem storeAll_ok (hw : w.memory.Sound) {b' : List Word}
    (h : w.memory.Holds base j (a ++ b ++ c)) (hb : b'.length = b.length)
    (hstart : start = j + a.length) :
    ∃ m', storeAll base (8 * start) b' w = .ok () (w.setMemory m') ∧
      w.memory.Evolves (Memory.Within base start b'.length) m' ∧
      m'.Holds base j (a ++ b' ++ c) ∧ m'.next = w.memory.next := by
  subst hstart
  obtain ⟨m', hrun, hev, hholds, -, hnext⟩ := h.splice hw hb
  have hroom := h.room
  simp only [List.length_append] at hroom
  refine ⟨m', ?_, hev, hholds, hnext⟩
  rw [storeAll_eq _ _ _ (by omega)]
  exact withMemory_ok hrun

theorem storeAll_singleton (base : Word) (offset : Nat) (v : Word) :
    storeAll base offset [v] = storeAt base offset v := by
  rw [storeAll, storeAt]
  simp only [storeAll, bind_pure_unit]

theorem storeAt_ok (hw : w.memory.Sound) {u : Word} (h : w.memory.Holds base j (a ++ [u] ++ c))
    (hstart : start = j + a.length) :
    ∃ m', storeAt base (8 * start) v w = .ok () (w.setMemory m') ∧
      w.memory.Evolves (Memory.Within base start 1) m' ∧
      m'.Holds base j (a ++ [v] ++ c) ∧ m'.next = w.memory.next := by
  rw [← storeAll_singleton]
  exact storeAll_ok hw h rfl hstart

end World

/-! ### Parameters -/

theorem Schema.InFrame.length_eq {schema : Schema} {words encoded : List Word}
    (h : schema.InFrame words encoded) : words.length = schema.components.length := h.1

theorem Carries.length_frame {m : Memory} {low high : Nat} {passing : Passing} {arg : ArgValue}
    {encoded spilled : List Word}
    (h : Carries Schema.InFrame m low high passing arg encoded spilled) :
    encoded.length = passing.frameWords := by
  cases passing with
  | direct schema =>
    cases arg with
    | value words =>
      obtain ⟨⟨hlen, rfl⟩, -⟩ := h
      exact hlen
    | address a => exact h.elim
  | indirect schema =>
    cases arg with
    | value words =>
      obtain ⟨-, a, rfl, -⟩ := h
      rfl
    | address a => exact h.elim
  | address =>
    cases arg with
    | value words => exact h.elim
    | address a =>
      rw [h.1]
      rfl

theorem Carried.length_frame {m : Memory} {low high : Nat} {carriers : List Carrier}
    {args : List ArgValue} {encoded spilled : List Word}
    (h : Carried Schema.InFrame m low high carriers args encoded spilled) :
    encoded.length = frameWords carriers := by
  induction carriers generalizing low args encoded spilled with
  | nil =>
    cases args with
    | nil => rw [h.2.1]; rfl
    | cons arg args => exact h.elim
  | cons c cs ih =>
    cases args with
    | nil => exact h.elim
    | cons arg args =>
      obtain ⟨_, n₁, n₂, _, _, -, rfl, -, hfirst, hrest⟩ := h
      rw [List.length_append, frameWords_cons, hfirst.length_frame, ih hrest]

namespace World

variable {w : World} {frame : Word} {start j low high : Nat} {encoded spilled : List Word}
  {carriers : List Carrier} {args : List ArgValue} {passing : Passing} {arg : ArgValue}

/-- Moving out of memory what a frame has the address of. -/
theorem takeWords_ok {a : Word} {words : List Word} {count : Nat} (hw : w.memory.Sound)
    (hlen : words.length = count) (hlow : low ≤ a.toNat) (hhigh : a.toNat + 8 * words.length ≤ high)
    (hholds : w.memory.Holds a 0 words) :
    ∃ m', withMemory (Memory.takeWords a count) w = .ok words (w.setMemory m') ∧
      w.memory.Evolves (fun n => low ≤ n ∧ n < high) m' ∧
      (∀ b ∈ spillWords a words.length,
        b.toNat < high ∧ b.toNat < w.memory.next.toNat ∧ m'.isDrained b = true) ∧
      m'.next = w.memory.next := by
  have hroom := hholds.room
  obtain ⟨m', hrun, hev, hdrained, -, hnext⟩ := Memory.takeWords_ok hw
    (show a.toNat + 8 * count ≤ 2 ^ 64 by omega) (hholds.readWords hlen)
  refine ⟨m', withMemory_ok hrun, hev.mono ?_, ?_, hnext⟩
  · rintro n - ⟨h1, h2⟩
    omega
  · intro b hb
    obtain ⟨k, hk, rfl⟩ := mem_spillWords hb
    have hread := hholds.reads k _ (List.getElem?_eq_getElem hk)
    rw [Nat.zero_add] at hread
    refine ⟨?_, hw.lt_next_of_isMapped (Memory.isMapped_of_read hread), hdrained k (by omega)⟩
    rw [Word.toNat_plus (by omega)]
    omega

/-- What reading a parameter out of a frame does, in a thunk or in an implementation. -/
def Fetches (x : Run ArgValue) (w : World) (low high : Nat) (arg : ArgValue)
    (spilled : List Word) : Prop :=
  ∃ m', x w = .ok arg (w.setMemory m') ∧
    w.memory.Evolves (fun n => low ≤ n ∧ n < high) m' ∧
    (∀ a ∈ spilled, a.toNat < high ∧ a.toNat < w.memory.next.toNat ∧ m'.isDrained a = true) ∧
    m'.next = w.memory.next

theorem fetches_fetchParam (hw : w.memory.Sound)
    (hframe : w.memory.Holds frame start encoded)
    (h : Carries Schema.InFrame w.memory low high passing arg encoded spilled) :
    Fetches (fetchParam frame start passing) w low high arg spilled := by
  cases passing with
  | direct schema =>
    cases arg with
    | address a => exact h.elim
    | value words =>
      obtain ⟨⟨hlen, rfl⟩, rfl⟩ := h
      refine ⟨w.memory, ?_, .refl _ _, by simp, rfl⟩
      rw [fetchParam, Step.bind_of_ok (loadAll_ok hframe hlen)]
      rfl
  | indirect schema =>
    cases arg with
    | address a => exact h.elim
    | value words =>
      obtain ⟨hlen, a, rfl, hlow, hhigh, hholds, rfl⟩ := h
      obtain ⟨m', hrun, hrest⟩ := takeWords_ok hw hlen hlow hhigh hholds
      refine ⟨m', ?_, hrest⟩
      rw [fetchParam, Step.bind_of_ok (loadAt_ok hframe), Step.bind_of_ok hrun]
      rfl
  | address =>
    cases arg with
    | value words => exact h.elim
    | address a =>
      obtain ⟨rfl, rfl⟩ := h
      refine ⟨w.memory, ?_, .refl _ _, by simp, rfl⟩
      rw [fetchParam, Step.bind_of_ok (loadAt_ok hframe)]
      rfl

theorem fetches_decodeField (hw : w.memory.Sound) (index : Nat)
    (hroom : frame.toNat + 8 * start < 2 ^ 64) (hframe : w.memory.Holds frame start encoded)
    (h : Carries Schema.InFrame w.memory low high passing arg encoded spilled) :
    Fetches (decodeField frame index (FrameField.ofPassing start passing) passing) w low high arg
      spilled := by
  have haddr : addWord frame (UInt64.ofNat (8 * start)) = .ok (frame.plus (8 * start)) :=
    addWord_ofNat hroom
  cases passing with
  | direct schema =>
    cases arg with
    | address a => exact h.elim
    | value words =>
      obtain ⟨⟨hlen, rfl⟩, rfl⟩ := h
      refine ⟨w.memory, ?_, .refl _ _, by simp, rfl⟩
      simp only [decodeField, FrameField.ofPassing]
      rw [haddr, Step.bind_of_ok Step.run_liftM_ok,
        Step.bind_of_ok (inMemory_ok (hframe.readWords_plus hlen))]
      rfl
  | indirect schema =>
    cases arg with
    | address a => exact h.elim
    | value words =>
      obtain ⟨hlen, a, rfl, hlow, hhigh, hholds, rfl⟩ := h
      obtain ⟨m', hrun, hrest⟩ := takeWords_ok hw hlen hlow hhigh hholds
      refine ⟨m', ?_, hrest⟩
      simp only [decodeField, FrameField.ofPassing]
      rw [haddr, Step.bind_of_ok Step.run_liftM_ok, Step.bind_of_ok (read_ok hframe.read),
        Step.bind_of_ok hrun]
      rfl
  | address =>
    cases arg with
    | value words => exact h.elim
    | address a =>
      obtain ⟨rfl, rfl⟩ := h
      refine ⟨w.memory, ?_, .refl _ _, by simp, rfl⟩
      simp only [decodeField, FrameField.ofPassing]
      rw [haddr, Step.bind_of_ok Step.run_liftM_ok, Step.bind_of_ok (read_ok hframe.read)]
      rfl

/-- Reading parameters out of a frame one after the other, given how one is read. -/
theorem fetches_all (one : Nat → Nat → Passing → Run ArgValue)
    (all : Nat → Nat → List Carrier → Run (List ArgValue))
    (hnil : ∀ start index, all start index [] = pure [])
    (hcons : ∀ start index c cs, all start index (c :: cs) = (do
      let first ← one start index c.passing
      let others ← all (start + c.passing.frameWords) (index + 1) cs
      return first :: others))
    (hone : ∀ {w : World} {start low high : Nat} {passing : Passing} {arg : ArgValue}
      {encoded spilled : List Word} (index : Nat), w.memory.Sound →
      frame.toNat + 8 * start < 2 ^ 64 →
      w.memory.Holds frame start encoded →
      Carries Schema.InFrame w.memory low high passing arg encoded spilled →
      Fetches (one start index passing) w low high arg spilled)
    (hw : w.memory.Sound) (hframe : w.memory.Holds frame start encoded)
    (hbelow : frame.toNat + 8 * (start + encoded.length) ≤ low) (hlow : low < 2 ^ 64)
    (h : Carried Schema.InFrame w.memory low high carriers args encoded spilled) (index : Nat) :
    ∃ m', all start index carriers w = .ok args (w.setMemory m') ∧
      w.memory.Evolves (fun n => low ≤ n ∧ n < high) m' ∧
      (∀ a ∈ spilled, a.toNat < high ∧ a.toNat < w.memory.next.toNat ∧ m'.isDrained a = true) ∧
      m'.next = w.memory.next := by
  -- the frame lies below everything that was spilled, so it stays as it is
  have key : ∀ (carriers : List Carrier) (w : World) (args : List ArgValue)
      (encoded spilled : List Word) (start index low' : Nat), low ≤ low' → w.memory.Sound →
      w.memory.Holds frame start encoded → frame.toNat + 8 * (start + encoded.length) ≤ low →
      Carried Schema.InFrame w.memory low' high carriers args encoded spilled →
      ∃ m', all start index carriers w = .ok args (w.setMemory m') ∧
        w.memory.Evolves (fun n => low' ≤ n ∧ n < high) m' ∧
        (∀ a ∈ spilled, a.toNat < high ∧ a.toNat < w.memory.next.toNat ∧ m'.isDrained a = true) ∧
        m'.next = w.memory.next := by
    intro carriers
    induction carriers with
    | nil =>
      intro w args encoded spilled start index low' _ _ _ _ h
      cases args with
      | cons arg args => exact h.elim
      | nil =>
        obtain ⟨-, rfl, rfl⟩ := h
        exact ⟨w.memory, by rw [hnil]; rfl, .refl _ _, by simp, rfl⟩
    | cons c cs ih =>
      intro w args encoded spilled start index low' hlow' hw hframe hbelow h
      cases args with
      | nil => exact h.elim
      | cons arg args =>
        obtain ⟨mid, n₁, n₂, s₁, s₂, hmid, rfl, rfl, hfirst, hrest⟩ := h
        rw [Memory.holds_append] at hframe
        rw [List.length_append] at hbelow
        obtain ⟨m₁, hrun₁, hev₁, hdr₁, hnext₁⟩ :=
          hone index hw (by omega) hframe.1 hfirst
        have hle := hrest.le
        have hrest₁ := hrest.evolves hev₁ hw fun n h1 h2 h3 => by omega
        have hframe₁ : m₁.Holds frame (start + c.passing.frameWords) n₂ := by
          rw [← hfirst.length_frame]
          refine hev₁.holds hw hframe.2 ?_
          rintro n ⟨h1, h2⟩ ⟨h3, h4⟩
          omega
        obtain ⟨m₂, hrun₂, hev₂, hdr₂, hnext₂⟩ := ih (w.setMemory m₁) args n₂ s₂ _ (index + 1) mid
          (by omega) (hev₁.sound hw) hframe₁ (by rw [← hfirst.length_frame]; omega) hrest₁
        refine ⟨m₂, ?_, ?_, ?_, hnext₂.trans hnext₁⟩
        · rw [hcons, Step.bind_of_ok hrun₁, Step.bind_of_ok hrun₂]
          rfl
        · refine (hev₁.mono fun n _ hn => by omega).then hev₂ fun n _ hn => by omega
        · intro a ha
          rcases List.mem_append.mp ha with ha | ha
          · obtain ⟨hlt, hnext, hdrained⟩ := hdr₁ a ha
            refine ⟨by omega, hnext, ?_⟩
            rw [hev₂.isDrained_eq (a := a) (by rw [memory_setMemory, hnext₁]; exact hnext)
              (by omega)]
            exact hdrained
          · obtain ⟨hlt, hnext, hdrained⟩ := hdr₂ a ha
            rw [memory_setMemory, hnext₁] at hnext
            exact ⟨hlt, hnext, hdrained⟩
  exact key carriers w args encoded spilled start index low (Nat.le_refl _) hw hframe hbelow h

theorem fetchParams_ok (hw : w.memory.Sound) (hframe : w.memory.Holds frame start encoded)
    (hbelow : frame.toNat + 8 * (start + encoded.length) ≤ low) (hlow : low < 2 ^ 64)
    (h : Carried Schema.InFrame w.memory low high carriers args encoded spilled) :
    ∃ m', fetchParams frame start carriers w = .ok args (w.setMemory m') ∧
      w.memory.Evolves (fun n => low ≤ n ∧ n < high) m' ∧
      (∀ a ∈ spilled, a.toNat < high ∧ a.toNat < w.memory.next.toNat ∧ m'.isDrained a = true) ∧
      m'.next = w.memory.next :=
  fetches_all (fun start _ passing => fetchParam frame start passing)
    (fun start _ carriers => fetchParams frame start carriers) (fun _ _ => rfl)
    (fun _ _ _ _ => rfl) (fun _ hw _ hframe h => fetches_fetchParam hw hframe h) hw hframe hbelow
    hlow h 0

theorem decodeFields_ok (hw : w.memory.Sound) (hframe : w.memory.Holds frame start encoded)
    (hbelow : frame.toNat + 8 * (start + encoded.length) ≤ low) (hlow : low < 2 ^ 64)
    (h : Carried Schema.InFrame w.memory low high carriers args encoded spilled) (index : Nat) :
    ∃ m', decodeFields frame index ((frameFields start carriers).zip carriers) w
        = .ok args (w.setMemory m') ∧
      w.memory.Evolves (fun n => low ≤ n ∧ n < high) m' ∧
      (∀ a ∈ spilled, a.toNat < high ∧ a.toNat < w.memory.next.toNat ∧ m'.isDrained a = true) ∧
      m'.next = w.memory.next :=
  fetches_all
    (fun start index passing =>
      decodeField frame index (FrameField.ofPassing start passing) passing)
    (fun start index carriers =>
      decodeFields frame index ((frameFields start carriers).zip carriers)) (fun _ _ => rfl)
    (fun _ _ _ _ => rfl) (fun index hw hroom hframe h => fetches_decodeField hw index hroom hframe h)
    hw hframe hbelow hlow h index

/-! ### Filling parameters -/

/-- What putting an argument into a frame gives. -/
theorem ends_fillParam {c : Carrier} {pre blank post : List Word} (hc : c.Sound)
    (hfits : arg.Fits c.passing) (hw : w.memory.Sound)
    (hframe : w.memory.Holds frame j (pre ++ blank ++ post))
    (hblank : blank.length = c.passing.frameWords) (hstart : start = j + pre.length)
    (hbelow : frame.toNat + 8 * (j + (pre ++ blank ++ post).length) ≤ w.memory.next.toNat) :
    Step.Ends (fillParam frame start arg c.passing) w (fun spilled w' => ∃ m' encoded,
      w' = w.setMemory m' ∧ w.memory.Evolves (Memory.Within frame start blank.length) m' ∧
      m'.Holds frame j (pre ++ encoded ++ post) ∧
      Carries Schema.InFrame m' w.memory.next.toNat m'.next.toNat c.passing arg encoded spilled)
      fun _ w' => Exhausted w' := by
  simp only [List.length_append] at hbelow
  cases hp : c.passing with
  | direct schema =>
    rw [hp] at hfits hblank
    cases arg with
    | address a => exact hfits.elim
    | value words =>
      have hlen : words.length = schema.components.length := hfits
      have hlen' : words.length = blank.length := hlen.trans hblank.symm
      obtain ⟨m', hrun, hev, hholds, hnext⟩ := storeAll_ok hw hframe hlen' hstart
      rw [fillParam, Step.ends_bind]
      refine Step.ends_of_ok hrun ?_
      exact ⟨m', words, rfl, hlen' ▸ hev, hholds, ⟨hlen, rfl⟩, rfl⟩
  | indirect schema =>
    rw [hp] at hfits hblank
    cases arg with
    | address a => exact hfits.elim
    | value words =>
      have hlen : words.length = schema.components.length := hfits
      have hsize := hc.sized schema hp
      obtain ⟨u, rfl⟩ := List.length_eq_one_iff.mp hblank
      simp only [List.length_singleton] at hbelow
      rw [fillParam, Step.ends_bind]
      refine (ends_spill hw (by rw [ArgValue.words]; omega)).imp (fun r w' hr => ?_) fun _ _ h => h
      obtain ⟨m₁, rfl, hbase, hspilled, hev₁, hholds₁, hhigh⟩ := hr
      have hs₁ := hev₁.sound hw
      obtain ⟨m₂, hrun, hev₂, hholds₂, hnext⟩ := storeAt_ok (w := w.setMemory m₁) (v := r.1) hs₁
        (hev₁.holds hw hframe fun _ _ h => h) hstart
      rw [Step.ends_bind]
      refine Step.ends_of_ok hrun ?_
      have hbase' := congrArg UInt64.toNat hbase
      refine ⟨m₂, [r.1], rfl, (hev₁.mono fun _ _ h => h.elim).then hev₂ fun _ _ h => h, hholds₂,
        hlen, r.1, rfl, by omega, ?_, hev₂.holds hs₁ hholds₁ ?_, hspilled⟩
      · rw [hnext]
        exact hhigh
      · rintro n ⟨h1, -⟩ ⟨-, h2⟩
        omega
  | address =>
    rw [hp] at hfits hblank
    cases arg with
    | value words => exact hfits.elim
    | address a =>
      obtain ⟨u, rfl⟩ := List.length_eq_one_iff.mp hblank
      obtain ⟨m', hrun, hev, hholds, hnext⟩ := storeAt_ok (v := a) hw hframe hstart
      rw [fillParam, Step.ends_bind]
      refine Step.ends_of_ok hrun ?_
      exact ⟨m', [a], rfl, hev, hholds, rfl, rfl⟩

theorem ends_fillParams {pre blank post : List Word} (hc : ∀ c ∈ carriers, c.Sound)
    (hshaped : Shaped carriers args) (hw : w.memory.Sound)
    (hframe : w.memory.Holds frame j (pre ++ blank ++ post))
    (hblank : blank.length = frameWords carriers) (hstart : start = j + pre.length)
    (hbelow : frame.toNat + 8 * (j + (pre ++ blank ++ post).length) ≤ w.memory.next.toNat) :
    Step.Ends (fillParams frame start (carriers.zip args)) w (fun spilled w' => ∃ m' encoded,
      w' = w.setMemory m' ∧ w.memory.Evolves (Memory.Within frame start blank.length) m' ∧
      m'.Holds frame j (pre ++ encoded ++ post) ∧
      Carried Schema.InFrame m' w.memory.next.toNat m'.next.toNat carriers args encoded spilled)
      fun _ w' => Exhausted w' := by
  induction carriers generalizing args w pre blank start with
  | nil =>
    cases args with
    | cons arg args => exact hshaped.elim
    | nil =>
      have hnil : blank = [] := List.eq_nil_of_length_eq_zero hblank
      subst hnil
      exact ⟨w.memory, [], rfl, .refl _ _, hframe, Nat.le_refl _, rfl, rfl⟩
  | cons c cs ih =>
    cases args with
    | nil => exact hshaped.elim
    | cons arg args =>
      rw [frameWords_cons] at hblank
      obtain ⟨blank₁, blank₂, hlen₁, rfl⟩ : ∃ blank₁ blank₂,
          blank₁.length = c.passing.frameWords ∧ blank = blank₁ ++ blank₂ :=
        ⟨blank.take c.passing.frameWords, blank.drop c.passing.frameWords,
          by rw [List.length_take]; omega, (List.take_append_drop _ _).symm⟩
      simp only [List.length_append] at hblank hbelow
      have hframe₁ : w.memory.Holds frame j (pre ++ blank₁ ++ (blank₂ ++ post)) := by
        simpa using hframe
      rw [List.zip_cons_cons, fillParams, Step.ends_bind]
      refine (ends_fillParam (hc c List.mem_cons_self) hshaped.1 hw hframe₁ hlen₁ hstart
        (by simp only [List.length_append]; omega)).imp (fun s₁ w' h => ?_) fun _ _ h => h
      obtain ⟨m₁, encoded₁, rfl, hev₁, hholds₁, hfirst⟩ := h
      have hs₁ := hev₁.sound hw
      have hn₁ : encoded₁.length = blank₁.length := by rw [hfirst.length_frame, hlen₁]
      have hnext₁ := hev₁.next
      rw [Step.ends_bind]
      have hframe₂ : m₁.Holds frame j (pre ++ encoded₁ ++ blank₂ ++ post) := by
        simpa using hholds₁
      refine (ih (w := w.setMemory m₁) (fun c' hc' => hc c' (List.mem_cons_of_mem _ hc'))
        hshaped.2 hs₁ hframe₂ (by omega) (by rw [List.length_append]; omega)
        (by simp only [List.length_append, memory_setMemory]; omega)).imp
        (fun s₂ w' h => ?_) fun _ _ h => h
      obtain ⟨m₂, encoded₂, rfl, hev₂, hholds₂, hrest⟩ := h
      refine ⟨m₂, encoded₁ ++ encoded₂, rfl, ?_, by simpa using hholds₂, m₁.next.toNat, encoded₁,
        encoded₂, s₁, s₂, hev₁.next, rfl, rfl, hfirst.evolves hev₂ hs₁ ?_, hrest⟩
      · refine (hev₁.mono ?_).then hev₂ ?_
        · rintro n - ⟨h1, h2⟩
          exact ⟨h1, by rw [List.length_append]; omega⟩
        · rintro n - ⟨h1, h2⟩
          exact ⟨by omega, by rw [List.length_append]; omega⟩
      · rintro n hn - ⟨-, h2⟩
        omega

end World

/-! ### Whole frames -/

/-- The frame holds these parts, and after them these words for the results. -/
structure Parts.InFrame (s : Lowered) (m : Memory) (frame : Word) (parts : Parts Word)
    (results : List Word) : Prop where
  fits : parts.FitsFrame s
  length_results : results.length = s.resultScalars.length
  holds : m.Holds frame s.errorAt (parts.toFrame ++ results)

namespace Parts

variable {s : Lowered} {m m' : Memory} {frame : Word} {parts : Parts Word} {results : List Word}
  {changed : Nat → Prop}

theorem InFrame.room (h : parts.InFrame s m frame results) :
    frame.toNat + 8 * s.frameEnd ≤ 2 ^ 64 := by
  have hroom := h.holds.room
  have hlen := h.fits.length_toFrame
  have hres := h.length_results
  rw [List.length_append] at hroom
  unfold Lowered.frameEnd
  omega

theorem InFrame.evolves (h : parts.InFrame s m frame results) (hm : m.Sound)
    (hev : m.Evolves changed m')
    (hc : ∀ n, Memory.Within frame 0 s.frameEnd n → ¬ changed n) :
    parts.InFrame s m' frame results where
  fits := h.fits
  length_results := h.length_results
  holds := by
    refine hev.holds hm h.holds ?_
    rintro n ⟨hlow, hhigh⟩
    have hlen := h.fits.length_toFrame
    have hres := h.length_results
    rw [List.length_append] at hhigh
    refine hc n ⟨by omega, ?_⟩
    unfold Lowered.frameEnd
    omega

theorem InFrame.segments (h : parts.InFrame s m frame results) :
    m.Holds frame s.errorAt parts.errorSlot.toList ∧
    m.Holds frame s.indirectAt parts.indirectReturn.toList ∧
    m.Holds frame s.paramsAt parts.params ∧ m.Holds frame s.bindingsAt parts.bindings ∧
    m.Holds frame s.receiverAt [parts.receiver] ∧
    m.Holds frame s.witnessAt (witnessList parts.witness) ∧
    m.Holds frame s.resultsAt results := by
  have hholds := h.holds
  simp only [toFrame, Memory.holds_append, List.length_append,
    length_option_toList h.fits.error, length_option_toList h.fits.indirect,
    length_witnessList h.fits.witness, h.fits.params, h.fits.bindings,
    List.length_singleton, ← Nat.add_assoc] at hholds
  obtain ⟨⟨⟨⟨⟨⟨he, hi⟩, hp⟩, hb⟩, hr⟩, hw⟩, hz⟩ := hholds
  exact ⟨he, hi, hp, hb, hr, hw, hz⟩

end Parts

/-- The parts of a frame that nobody has filled. -/
def Parts.blank (s : Lowered) : Parts Word where
  resumeBuffer := none
  indirectReturn := if s.hasIndirectReturn then some 0 else none
  params := List.replicate (frameWords s.carriers) 0
  bindings := List.replicate s.bindingCount 0
  receiver := 0
  errorSlot := if s.throws then some 0 else none
  witness := if s.witness then some (0, 0) else none

theorem Parts.fitsFrame_blank (s : Lowered) : (blank s).FitsFrame s where
  resume := rfl
  indirect := by
    unfold blank
    cases s.hasIndirectReturn <;> rfl
  params := List.length_replicate
  bindings := List.length_replicate
  error := by
    unfold blank
    cases s.throws <;> rfl
  witness := by
    unfold blank
    cases s.witness <;> rfl

theorem Parts.toFrame_blank (s : Lowered) : ∀ v ∈ (blank s).toFrame, v = 0 := by
  intro v hv
  simp only [toFrame, blank, witnessList, List.mem_append, Option.mem_toList,
    Option.ite_none_right_eq_some, Option.some.injEq, List.mem_replicate, List.mem_singleton,
    List.mem_flatMap] at hv
  rcases hv with ((((⟨-, rfl⟩ | ⟨-, rfl⟩) | ⟨-, rfl⟩) | ⟨-, rfl⟩) | rfl) | ⟨wt, ⟨-, rfl⟩, hv⟩
  · rfl
  · rfl
  · rfl
  · rfl
  · rfl
  · simpa using hv

/-- A fresh frame. -/
theorem Parts.inFrame_allocated {s : Lowered} {m : Memory} (hm : m.Sound)
    (h : m.next.toNat + Region.extent (8 * s.frameEnd) + Region.gapBytes < 2 ^ 64) :
    (blank s).InFrame s (m.allocated (8 * s.frameEnd)) m.next
      (List.replicate s.resultScalars.length 0) where
  fits := fitsFrame_blank s
  length_results := List.length_replicate
  holds := by
    have hlen := (fitsFrame_blank s).length_toFrame
    have hzero : (blank s).toFrame = List.replicate (blank s).toFrame.length 0 :=
      List.eq_replicate_of_mem (toFrame_blank s)
    rw [hzero, List.replicate_append_replicate]
    refine Memory.holds_allocated hm ?_ h
    unfold Lowered.frameEnd
    omega

namespace World

variable {s : Lowered} {w : World} {frame : Word} {parts parts' : Parts Word}
  {results : List Word} {args : List ArgValue} {low high : Nat} {spilled : List Word}

/-- What filling a part of a frame does: afterwards it holds the parts `parts'`, and
nothing else has changed. -/
def Fills (s : Lowered) (x : Run Unit) (w : World) (frame : Word) (parts' : Parts Word)
    (results : List Word) : Prop :=
  ∃ m', x w = .ok () (w.setMemory m') ∧
    w.memory.Evolves (Memory.Within frame 0 s.frameEnd) m' ∧
    parts'.InFrame s m' frame results ∧ m'.next = w.memory.next

theorem Fills.bind {x y : Run Unit} {parts'' : Parts Word} {results' : List Word}
    (h : Fills s x w frame parts' results)
    (hy : ∀ m', parts'.InFrame s m' frame results → (w.memory.Sound → m'.Sound) →
      Fills s y (w.setMemory m') frame parts'' results') :
    Fills s (x >>= fun _ => y) w frame parts'' results' := by
  obtain ⟨m₁, hrun₁, hev₁, hin₁, hnext₁⟩ := h
  obtain ⟨m₂, hrun₂, hev₂, hin₂, hnext₂⟩ := hy m₁ hin₁ hev₁.sound
  refine ⟨m₂, ?_, hev₁.trans hev₂, hin₂, hnext₂.trans hnext₁⟩
  rw [Step.bind_of_ok hrun₁]
  exact hrun₂

/-- Storing over a run of words of a frame. -/
theorem fills_storeAll (hw : w.memory.Sound) {start : Nat} {a b c b' : List Word}
    {results' : List Word} (h : parts.InFrame s w.memory frame results)
    (hlist : parts.toFrame ++ results = a ++ b ++ c) (hb : b'.length = b.length)
    (hstart : start = s.errorAt + a.length) (hfits : parts'.FitsFrame s)
    (hlist' : parts'.toFrame ++ results' = a ++ b' ++ c) :
    Fills s (storeAll frame (8 * start) b') w frame parts' results' := by
  have hholds := h.holds
  rw [hlist] at hholds
  obtain ⟨m', hrun, hev, hholds', hnext⟩ := storeAll_ok hw hholds hb hstart
  have hlen := congrArg List.length hlist
  have hlen' := congrArg List.length hlist'
  have h₁ := h.fits.length_toFrame
  have h₂ := hfits.length_toFrame
  have h₃ := h.length_results
  simp only [List.length_append] at hlen hlen'
  refine ⟨m', hrun, hev.mono ?_, ⟨hfits, by omega, hlist' ▸ hholds'⟩, hnext⟩
  rintro n - ⟨hlow, hhigh⟩
  refine ⟨by omega, ?_⟩
  unfold Lowered.frameEnd
  omega

theorem fills_storeAt (hw : w.memory.Sound) {start : Nat} {a c : List Word} {u v : Word}
    (h : parts.InFrame s w.memory frame results)
    (hlist : parts.toFrame ++ results = a ++ [u] ++ c)
    (hstart : start = s.errorAt + a.length) (hfits : parts'.FitsFrame s)
    (hlist' : parts'.toFrame ++ results = a ++ [v] ++ c) :
    Fills s (storeAt frame (8 * start) v) w frame parts' results := by
  rw [← storeAll_singleton]
  exact fills_storeAll hw h hlist rfl hstart hfits hlist'

theorem fills_receiver (hw : w.memory.Sound) (h : parts.InFrame s w.memory frame results)
    (v : Word) :
    Fills s (storeAt frame (8 * s.receiverAt) v) w frame { parts with receiver := v } results := by
  have hf := h.fits
  refine fills_storeAt hw h
    (a := parts.errorSlot.toList ++ parts.indirectReturn.toList ++ parts.params ++ parts.bindings)
    (u := parts.receiver) (c := Parts.witnessList parts.witness ++ results)
    (by simp only [Parts.toFrame, List.append_assoc]) ?_
    ⟨hf.resume, hf.indirect, hf.params, hf.bindings, hf.error, hf.witness⟩
    (by simp only [Parts.toFrame, List.append_assoc])
  simp only [List.length_append, Parts.length_option_toList hf.error,
    Parts.length_option_toList hf.indirect, hf.params, hf.bindings, Lowered.receiverAt,
    Lowered.bindingsAt, Lowered.paramsAt, Lowered.indirectAt]
  omega

theorem fills_bindings (hw : w.memory.Sound) (h : parts.InFrame s w.memory frame results)
    {words : List Word} (hwords : words.length = s.bindingCount) :
    Fills s (storeAll frame (8 * s.bindingsAt) words) w frame { parts with bindings := words }
      results := by
  have hf := h.fits
  refine fills_storeAll hw h
    (a := parts.errorSlot.toList ++ parts.indirectReturn.toList ++ parts.params)
    (b := parts.bindings) (c := [parts.receiver] ++ Parts.witnessList parts.witness ++ results)
    (by simp only [Parts.toFrame, List.append_assoc]) (hwords.trans hf.bindings.symm) ?_
    ⟨hf.resume, hf.indirect, hf.params, hwords, hf.error, hf.witness⟩
    (by simp only [Parts.toFrame, List.append_assoc])
  simp only [List.length_append, Parts.length_option_toList hf.error,
    Parts.length_option_toList hf.indirect, hf.params, Lowered.bindingsAt, Lowered.paramsAt,
    Lowered.indirectAt]
  omega

/-- A field that a signature does not have is left alone. -/
theorem fills_writeField (hw : w.memory.Sound) {start : Nat} {a c : List Word}
    {present : Bool} {o o' : Option Word} (h : parts.InFrame s w.memory frame results)
    (ho : o.isSome = present) (ho' : o'.isSome = present)
    (hlist : parts.toFrame ++ results = a ++ o.toList ++ c)
    (hstart : start = s.errorAt + a.length) (hfits : parts'.FitsFrame s)
    (hlist' : parts'.toFrame ++ results = a ++ o'.toList ++ c) :
    Fills s (writeField frame (if present = true then some (8 * start) else none) o') w frame
      parts' results := by
  subst ho
  cases o with
  | none =>
    cases o' with
    | some v => cases ho'
    | none =>
      refine ⟨w.memory, rfl, .refl _ _, ⟨hfits, h.length_results, ?_⟩, rfl⟩
      rw [hlist', ← hlist]
      exact h.holds
  | some u =>
    cases o' with
    | none => cases ho'
    | some v => exact fills_storeAt hw h hlist hstart hfits hlist'

theorem fills_error (hw : w.memory.Sound) (h : parts.InFrame s w.memory frame results)
    {o : Option Word} (ho : o.isSome = s.throws) :
    Fills s (writeField frame s.frameLayout.errorSlot o) w frame { parts with errorSlot := o }
      results := by
  have hf := h.fits
  exact fills_writeField hw h (a := [])
    (c := parts.indirectReturn.toList ++ parts.params ++ parts.bindings ++ [parts.receiver]
      ++ Parts.witnessList parts.witness ++ results)
    hf.error ho (by simp only [Parts.toFrame, List.append_assoc, List.nil_append]) rfl
    ⟨hf.resume, hf.indirect, hf.params, hf.bindings, ho, hf.witness⟩
    (by simp only [Parts.toFrame, List.append_assoc, List.nil_append])

theorem fills_indirect (hw : w.memory.Sound) (h : parts.InFrame s w.memory frame results)
    {o : Option Word} (ho : o.isSome = s.hasIndirectReturn) :
    Fills s (writeField frame s.frameLayout.indirectReturn o) w frame
      { parts with indirectReturn := o } results := by
  have hf := h.fits
  refine fills_writeField hw h (a := parts.errorSlot.toList)
    (c := parts.params ++ parts.bindings ++ [parts.receiver] ++ Parts.witnessList parts.witness
      ++ results)
    hf.indirect ho (by simp only [Parts.toFrame, List.append_assoc]) ?_
    ⟨hf.resume, ho, hf.params, hf.bindings, hf.error, hf.witness⟩
    (by simp only [Parts.toFrame, List.append_assoc])
  rw [Parts.length_option_toList hf.error]
  rfl

/-- Both words of the witness are there or neither is. -/
theorem fills_witness (hw : w.memory.Sound) (h : parts.InFrame s w.memory frame results)
    {o : Option (Word × Word)} (ho : o.isSome = s.witness) :
    Fills s (do
      writeField frame s.frameLayout.selfMetadata (o.map (·.1))
      writeField frame s.frameLayout.selfWitnessTable (o.map (·.2))) w frame
      { parts with witness := o } results := by
  have hf := h.fits
  have hstart : s.witnessAt = s.errorAt + (parts.errorSlot.toList ++ parts.indirectReturn.toList
      ++ parts.params ++ parts.bindings ++ [parts.receiver]).length := by
    simp only [List.length_append, Parts.length_option_toList hf.error,
      Parts.length_option_toList hf.indirect, hf.params, hf.bindings, List.length_singleton,
      Lowered.witnessAt, Lowered.receiverAt, Lowered.bindingsAt, Lowered.paramsAt,
      Lowered.indirectAt]
    omega
  have hold := hf.witness
  unfold Lowered.frameLayout
  rw [← ho] at hold ⊢
  cases o with
  | none =>
    have hnone : parts.witness = none := by
      cases hwit : parts.witness with
      | none => rfl
      | some wt =>
        rw [hwit] at hold
        cases hold
    refine ⟨w.memory, rfl, .refl _ _, ?_, rfl⟩
    rw [← hnone]
    exact h
  | some wt =>
    obtain ⟨old, hsome⟩ := Option.isSome_iff_exists.mp hold
    have hfirst : Fills s (storeAt frame (8 * s.witnessAt) wt.1) w frame
        { parts with witness := some (wt.1, old.2) } results := by
      refine fills_storeAt hw h (u := old.1) (c := [old.2] ++ results) ?_ hstart
        ⟨hf.resume, hf.indirect, hf.params, hf.bindings, hf.error, ho⟩ ?_
      · rw [Parts.toFrame, hsome]
        simp [Parts.witnessList]
      · simp [Parts.toFrame, Parts.witnessList]
    refine hfirst.bind fun m' h' hs' => ?_
    refine fills_storeAt (w := w.setMemory m') (hs' hw) h' (u := old.2) (v := wt.2)
      (a := parts.errorSlot.toList ++ parts.indirectReturn.toList ++ parts.params
        ++ parts.bindings ++ [parts.receiver] ++ [wt.1]) (c := results) ?_ ?_
      ⟨hf.resume, hf.indirect, hf.params, hf.bindings, hf.error, ho⟩ ?_
    · simp [Parts.toFrame, Parts.witnessList]
    · rw [List.length_append, ← Nat.add_assoc, ← hstart, List.length_singleton]
    · simp [Parts.toFrame, Parts.witnessList]

theorem ends_fillParams_inFrame (hc : ∀ c ∈ s.carriers, c.Sound) (hshaped : Shaped s.carriers args)
    (hw : w.memory.Sound) (h : parts.InFrame s w.memory frame results)
    (hbelow : frame.toNat + 8 * s.frameEnd ≤ w.memory.next.toNat) :
    Step.Ends (fillParams frame s.paramsAt (s.carriers.zip args)) w (fun spilled w' =>
      ∃ m' encoded, w' = w.setMemory m' ∧
        w.memory.Evolves (Memory.Within frame 0 s.frameEnd) m' ∧
        { parts with params := encoded }.InFrame s m' frame results ∧
        Carried Schema.InFrame m' w.memory.next.toNat m'.next.toNat s.carriers args encoded spilled)
      fun _ w' => Exhausted w' := by
  have hf := h.fits
  have hlen := hf.length_toFrame
  have hres := h.length_results
  have hlist : parts.toFrame ++ results
      = (parts.errorSlot.toList ++ parts.indirectReturn.toList) ++ parts.params
        ++ (parts.bindings ++ [parts.receiver] ++ Parts.witnessList parts.witness ++ results) := by
    simp only [Parts.toFrame, List.append_assoc]
  have hholds := h.holds
  rw [hlist] at hholds
  have hstart : s.paramsAt
      = s.errorAt + (parts.errorSlot.toList ++ parts.indirectReturn.toList).length := by
    rw [List.length_append, Parts.length_option_toList hf.error,
      Parts.length_option_toList hf.indirect, Lowered.paramsAt, Lowered.indirectAt]
    omega
  have hend : s.errorAt + (parts.toFrame ++ results).length = s.frameEnd := by
    rw [List.length_append, Lowered.frameEnd]
    omega
  refine (ends_fillParams hc hshaped hw hholds hf.params hstart
    (by rw [← hlist, hend]; exact hbelow)).imp (fun spilled w' hr => ?_) fun _ _ h => h
  obtain ⟨m', encoded, rfl, hev, hholds', hcarried⟩ := hr
  refine ⟨m', encoded, rfl, hev.mono ?_, ⟨⟨hf.resume, hf.indirect, hcarried.length_frame,
    hf.bindings, hf.error, hf.witness⟩, hres, ?_⟩, hcarried⟩
  · rintro n - ⟨hlow, hhigh⟩
    have hsum := congrArg List.length hlist
    simp only [List.length_append] at hsum hend hstart
    exact ⟨by omega, by omega⟩
  · simp only [Parts.toFrame, List.append_assoc] at hholds' ⊢
    exact hholds'

/-- Filling a frame the way a thunk does. -/
theorem ends_fillFrame (hc : ∀ c ∈ s.carriers, c.Sound) (hshaped : Shaped s.carriers args)
    (hparts : parts.Rest s) (hw : w.memory.Sound) {old : Parts Word}
    (h : old.InFrame s w.memory frame results)
    (hbelow : frame.toNat + 8 * s.frameEnd ≤ w.memory.next.toNat) :
    Step.Ends (fillFrame s frame parts args) w (fun _ w' => ∃ m' encoded spilled,
      w' = w.setMemory m' ∧ w.memory.Evolves (Memory.Within frame 0 s.frameEnd) m' ∧
      (parts.withParams encoded).InFrame s m' frame results ∧
      Carried Schema.InFrame m' w.memory.next.toNat m'.next.toNat s.carriers args encoded spilled)
      fun _ w' => Exhausted w' := by
  -- the four fields before the parameters
  obtain ⟨m₁, hrun₁, hev₁, hin₁, hnext₁⟩ := (fills_receiver hw h parts.receiver).bind
    fun m' h' hs' => (fills_witness (w := w.setMemory m') (hs' hw) h' hparts.witness).bind
    fun m'' h'' hs'' => (fills_error (w := w.setMemory m'') (hs'' (hs' hw)) h'' hparts.error).bind
    fun m₃ h₃ hs₃ =>
      fills_indirect (w := w.setMemory m₃) (hs₃ (hs'' (hs' hw))) h₃ hparts.indirect
  have heq : fillFrame s frame parts args = (do
      (do
        storeAt frame (8 * s.receiverAt) parts.receiver
        (do
          writeField frame s.frameLayout.selfMetadata (parts.witness.map (·.1))
          writeField frame s.frameLayout.selfWitnessTable (parts.witness.map (·.2)))
        writeField frame s.frameLayout.errorSlot parts.errorSlot
        writeField frame s.frameLayout.indirectReturn parts.indirectReturn)
      let _ ← fillParams frame s.paramsAt (s.carriers.zip args)
      storeAll frame (8 * s.bindingsAt) parts.bindings) := by
    simp only [fillFrame, bind_assoc]
  rw [heq, Step.ends_bind]
  refine Step.ends_of_ok hrun₁ ?_
  rw [Step.ends_bind]
  refine (ends_fillParams_inFrame (w := w.setMemory m₁) hc hshaped (hev₁.sound hw) hin₁
    (by rw [memory_setMemory, hnext₁]; exact hbelow)).imp (fun spilled w' hr => ?_) fun _ _ h => h
  obtain ⟨m₂, encoded, rfl, hev₂, hin₂, hcarried⟩ := hr
  obtain ⟨m₃, hrun₃, hev₃, hin₃, hnext₃⟩ := fills_bindings (w := (w.setMemory m₁).setMemory m₂)
    (hev₂.sound (hev₁.sound hw)) hin₂ hparts.bindings
  refine Step.ends_of_ok hrun₃ ⟨m₃, encoded, spilled, rfl, (hev₁.trans hev₂).trans hev₃, ?_, ?_⟩
  · rw [Parts.withParams, hparts.resume, ← h.fits.resume]
    exact hin₃
  · rw [memory_setMemory, hnext₁] at hcarried
    rw [hnext₃]
    refine hcarried.evolves hev₃ (hev₂.sound (hev₁.sound hw)) ?_
    rintro n hn - ⟨-, hlt⟩
    omega

/-! ### Reading a frame -/

theorem checkFrame_ok (hw : w.memory.Sound) {bytes required : Nat}
    (howns : w.memory.Owns frame bytes) (h : required ≤ bytes) :
    checkFrame frame required w = .ok () w := by
  have hsize : w.machine.memory.regionSize? frame = some bytes := howns.regionSize hw
  rw [checkFrame, Step.bind_of_ok Step.run_get, hsize]
  simp only
  rw [if_neg (by omega)]
  rfl

/-- A thunk reads the parts and the arguments out of its frame. -/
theorem fetchFrame_ok (hw : w.memory.Sound) (h : parts.InFrame s w.memory frame results)
    (hbelow : frame.toNat + 8 * s.frameEnd ≤ low) (hlow : low < 2 ^ 64)
    (hc : Carried Schema.InFrame w.memory low high s.carriers args parts.params spilled) :
    ∃ m', fetchFrame s frame w = .ok (parts.withParams [], args) (w.setMemory m') ∧
      w.memory.Evolves (fun n => low ≤ n ∧ n < high) m' ∧
      (∀ a ∈ spilled, a.toNat < high ∧ a.toNat < w.memory.next.toNat ∧ m'.isDrained a = true) ∧
      m'.next = w.memory.next := by
  obtain ⟨herror, hindirect, hparams, -, hreceiver, hwitness, -⟩ := h.segments
  have hend : s.paramsAt + parts.params.length ≤ s.frameEnd := by
    rw [h.fits.params]
    unfold Lowered.frameEnd Lowered.resultsAt Lowered.witnessAt Lowered.receiverAt
      Lowered.bindingsAt
    omega
  obtain ⟨m', hrun, hev, hdrained, hnext⟩ := fetchParams_ok hw hparams (by omega) hlow hc
  have hin' := h.evolves hw hev (by rintro n ⟨-, h1⟩ ⟨h2, -⟩; omega)
  obtain ⟨-, -, -, hbindings, -, -, -⟩ := hin'.segments
  refine ⟨m', ?_, hev, hdrained, hnext⟩
  rw [fetchFrame, Step.bind_of_ok (loadAt_ok hreceiver),
    Step.bind_of_ok (readWitness_ok h.fits.witness hwitness), Lowered.frameLayout,
    Step.bind_of_ok (readField_ok h.fits.error herror),
    Step.bind_of_ok (readField_ok h.fits.indirect hindirect), Step.bind_of_ok hrun,
    Step.bind_of_ok (loadAll_ok (w := w.setMemory m') hbindings h.fits.bindings),
    Parts.withParams, h.fits.resume]
  rfl

/-- An implementation reads the same parts and arguments. -/
theorem decodeFrame_ok (hw : w.memory.Sound) (h : parts.InFrame s w.memory frame results)
    {bytes : Nat} (howns : w.memory.Owns frame bytes) (hbytes : 8 * s.frameEnd ≤ bytes)
    (hbelow : frame.toNat + 8 * s.frameEnd ≤ low) (hlow : low < 2 ^ 64)
    (hc : Carried Schema.InFrame w.memory low high s.carriers args parts.params spilled) :
    ∃ m', decodeFrame s s.frameLayout frame w = .ok (parts.incoming args) (w.setMemory m') ∧
      w.memory.Evolves (fun n => low ≤ n ∧ n < high) m' ∧
      (∀ a ∈ spilled, a.toNat < high ∧ a.toNat < w.memory.next.toNat ∧ m'.isDrained a = true) ∧
      m'.next = w.memory.next := by
  obtain ⟨herror, hindirect, hparams, hbindings, hreceiver, hwitness, -⟩ := h.segments
  have hroom := h.room
  have hend : s.paramsAt + parts.params.length = s.bindingsAt := by
    rw [h.fits.params, Lowered.bindingsAt]
  have hend' : s.bindingsAt ≤ s.receiverAt ∧ s.receiverAt < s.frameEnd := by
    unfold Lowered.frameEnd Lowered.resultsAt Lowered.witnessAt Lowered.receiverAt
    omega
  obtain ⟨m', hrun, hev, hdrained, hnext⟩ := decodeFields_ok hw hparams (by omega) hlow hc 0
  have hread : (do read (← addWord frame (UInt64.ofNat (8 * s.receiverAt))) : Run Word) w
      = .ok parts.receiver w := loadAt_ok hreceiver
  have hcheck : checkFrame frame s.frameLayout.size w = .ok () w :=
    checkFrame_ok hw howns hbytes
  refine ⟨m', ?_, hev, hdrained, hnext⟩
  rw [decodeFrame, Step.bind_of_ok hcheck,
    Step.bind_of_ok (readWitness_ok h.fits.witness hwitness), Lowered.frameLayout, ← bind_assoc,
    Step.bind_of_ok hread, addWord_index (by omega), Step.bind_of_ok Step.run_liftM_ok,
    Step.bind_of_ok (inMemory_ok (hbindings.readWords_plus h.fits.bindings)),
    Step.bind_of_ok (readField_ok h.fits.error herror),
    Step.bind_of_ok (readField_ok h.fits.indirect hindirect), Step.bind_of_ok hrun]
  rfl

end World

end Dispatch
