import Dispatch.Proofs.Calls
import Dispatch.Proofs.Footprint

/-!
# What arguments leave alone

Arguments are stored in memory that was made for them, and taken out of it.  Where a
caller and a callee have one signature, the words that the callee takes for addresses are
the addresses that the caller made, whatever the arguments are: also if an argument has
the wrong number of components, or if encoding stops half-way.

## Main definitions

* `AddressesAbove` — encoded arguments whose addresses lie above a floor.
* `World.FrameAbove` — a frame that lies above a floor, and whose addresses do.

## Main results

* `World.spared_flatArgs`, `World.spared_decodeAll` — flat arguments.
* `World.spared_sentFrame`, `World.spared_fetchFrame`, `World.spared_decodeFrame` — frames.
-/

namespace Dispatch

open Attempt

/-! ### Addresses among encoded arguments -/

/-- Where parameters take as many words as `width` says: every word that is the address
of a spilled value lies above the floor. -/
def AddressesAbove (width : Passing → Nat) (floor : Nat) : List Carrier → List Word → Prop
  | [], _ => True
  | c :: cs, words =>
    (∀ schema, c.passing = .indirect schema → floor ≤ (words.headD 0).toNat) ∧
      AddressesAbove width floor cs (words.drop (width c.passing))

theorem AddressesAbove.mono {width : Passing → Nat} {floor floor' : Nat} (hle : floor' ≤ floor) :
    ∀ {carriers : List Carrier} {words : List Word}, AddressesAbove width floor carriers words →
      AddressesAbove width floor' carriers words
  | [], _, _ => trivial
  | _ :: _, _, h => ⟨fun schema hp => Nat.le_trans hle (h.1 schema hp), h.2.mono hle⟩

theorem Carried.addressesAbove {m : Memory} {high : Nat} {carriers : List Carrier} :
    ∀ {low : Nat} {args : List ArgValue} {encoded spilled : List Word},
      Carried Schema.InFrame m low high carriers args encoded spilled →
        AddressesAbove Passing.frameWords low carriers encoded := by
  induction carriers with
  | nil => exact fun _ => trivial
  | cons c cs ih =>
    intro low args encoded spilled h
    cases args with
    | nil => exact h.elim
    | cons arg args =>
      obtain ⟨mid, encoded₁, encoded₂, spilled₁, spilled₂, hmid, rfl, rfl, hfirst, hrest⟩ := h
      refine ⟨fun schema hp => ?_, ?_⟩
      · rw [hp] at hfirst
        cases arg with
        | address word => exact hfirst.elim
        | value words =>
          obtain ⟨-, a, rfl, hlow, -⟩ := hfirst
          exact hlow
      · rw [← hfirst.length_frame, List.drop_left]
        exact (ih hrest).mono hmid

/-- The addresses that a callee stores its answer through lie above the floor. -/
structure Parts.Above (floor : Nat) (parts : Parts Word) : Prop where
  slot : ∀ a ∈ parts.errorSlot, floor ≤ a.toNat
  place : ∀ d ∈ parts.indirectReturn, floor ≤ d.toNat

namespace World

variable {α : Type} {floor low : Nat} {w w' w₀ : World} {s : Lowered} {frame : Word}
  {parts : Parts Word} {carriers : List Carrier} {results : List Word}

theorem Spares.mono {floor' : Nat} (h : Spares floor w w') (hle : floor' ≤ floor) :
    Spares floor' w w' :=
  { h with evolves := h.evolves.mono fun _ _ hn => Nat.le_trans hle hn }

theorem Spared.mono {floor' : Nat} {x : Run α} {Q : α → World → Prop} (h : Spared floor x w Q)
    (hle : floor' ≤ floor) : Spared floor' x w Q :=
  Step.Ends.imp h (fun _ _ h => ⟨h.1.mono hle, h.2⟩) fun _ _ h => h.mono hle

/-! ### Flat arguments -/

theorem spared_decodeAll : ∀ {carriers : List Carrier} {native : List Word} {w : World}
    (index : Nat), AddressesAbove Passing.registerWords floor carriers native →
      Spared floor (decodeAll index native carriers) w fun args _ =>
        args.length = carriers.length
  | [], _, _, _, _ => spared_pure rfl
  | c :: cs, native, w, index, h => by
    have hone : Spared floor
        (decodeOne index (native.take c.passing.registerWords) c.passing) w Anything := by
      cases hp : c.passing with
      | direct schema => exact (spared_attempt _).bind fun _ _ _ _ => spared_pure trivial
      | address => exact spared_pure trivial
      | indirect schema =>
        refine (spared_takeWords ?_).bind fun _ _ _ _ => spared_pure trivial
        have hhead := h.1 schema hp
        cases native with
        | nil => exact hhead
        | cons a rest => exact hhead
    refine hone.bind fun _ w₁ _ _ => ?_
    refine (spared_decodeAll (index + 1) h.2).bind fun others w₂ _ hlen => spared_pure ?_
    rw [List.length_cons, hlen, List.length_cons]

theorem length_encode {schema : Schema} {values native : List Word}
    (h : schema.encode values = .ok native) : native.length = schema.nativeKinds.length := by
  unfold Schema.encode at h
  split at h
  · cases h
  · unfold Schema.toNative at h
    cases schema with
    | indirect components => cases h
    | direct components words =>
      simp only [Schema.words, Attempt.ok_bind] at h
      split at h
      · cases h
        rw [List.length_map, Schema.nativeKinds, List.length_map]
      · cases h

theorem spared_spill (hw : Firm floor w) (words : List Word) :
    Spared floor (spill words) w fun r _ => floor ≤ r.1.toNat := by
  refine (spared_allocWords hw).bind fun base w₁ _ hbase => ?_
  refine (spared_writeWords hbase).bind fun _ w₂ _ _ => ?_
  exact (spared_attempt _).bind fun _ _ _ _ => spared_pure hbase

theorem spared_flatArg (hw : Firm floor w) (index : Nat) (arg : ArgValue) (passing : Passing) :
    Spared floor (flatArg index arg passing) w fun r _ =>
      r.1.length = passing.registerWords ∧
        ∀ schema, passing = .indirect schema → floor ≤ (r.1.headD 0).toNat := by
  unfold flatArg
  cases passing with
  | direct schema =>
    refine spared_ite (fun hempty => spared_pure ⟨?_, fun _ h => by cases h⟩) fun _ => ?_
    · rw [Passing.registerWords, List.isEmpty_iff.mp hempty]
      rfl
    · cases arg with
      | address word => exact spared_fail _
      | value words =>
        refine (spared_liftM (Q := fun native _ => native.length = schema.nativeKinds.length)
          fun native h => length_encode h).bind fun native _ _ hlen => ?_
        exact spared_pure ⟨hlen, fun _ h => by cases h⟩
  | indirect schema =>
    cases arg with
    | address word => exact spared_fail _
    | value words =>
      exact (spared_spill hw words).bind fun r _ _ hbase => spared_pure ⟨rfl, fun _ _ => hbase⟩
  | address =>
    cases arg with
    | value words => exact spared_fail _
    | address word => exact spared_pure ⟨rfl, fun _ h => by cases h⟩

/-- Whatever the arguments are, their native words are as many as the signature says, and
what is spilled lies above the floor. -/
theorem spared_flatArgs : ∀ {carriers : List Carrier} {args : List ArgValue} {w : World},
    Firm floor w → args.length = carriers.length → ∀ index,
      Spared floor (flatArgs index (carriers.zip args)) w fun r _ =>
        r.1.length = registerWords carriers ∧
          AddressesAbove Passing.registerWords floor carriers r.1
  | [], _, _, _, _, _ => spared_pure ⟨rfl, trivial⟩
  | _ :: _, [], _, _, hlen, _ => by cases hlen
  | c :: cs, arg :: args, w, hw, hlen, index => by
    rw [List.zip_cons_cons, flatArgs]
    refine (spared_flatArg hw index arg c.passing).bind fun r₁ w₁ hs₁ h₁ => ?_
    refine (spared_flatArgs (hs₁.firm hw) (Nat.succ.inj hlen) (index + 1)).bind
      fun r₂ w₂ _ h₂ => spared_pure ?_
    refine ⟨by rw [List.length_append, h₁.1, h₂.1, registerWords_cons], fun schema hp => ?_, ?_⟩
    · have hone := h₁.1
      rw [hp] at hone
      obtain ⟨a, ha⟩ := List.length_eq_one_iff.mp hone
      have hhead := h₁.2 schema hp
      rw [ha] at hhead ⊢
      exact hhead
    · rw [← h₁.1, List.drop_left]
      exact h₂.2

/-! ### Reading a frame -/

/-- A frame with these parts that lies above the floor.  The addresses of spilled values
lie above the frame, and the addresses of the answer above the floor. -/
structure FrameAbove (s : Lowered) (floor low : Nat) (frame : Word) (parts : Parts Word)
    (w : World) : Prop where
  inFrame : ∃ results, parts.InFrame s w.memory frame results
  floor_le : floor ≤ frame.toNat
  below : frame.toNat + 8 * s.frameEnd ≤ low
  low_lt : low < 2 ^ 64
  above : parts.Above floor
  addresses : AddressesAbove Passing.frameWords low s.carriers parts.params

theorem FrameAbove.floor_le_low (h : FrameAbove s floor low frame parts w) : floor ≤ low := by
  have h1 := h.floor_le
  have h2 := h.below
  omega

/-- What lies below the words that hold addresses stays while these are taken. -/
theorem holds_of_spares {start : Nat} {words : List Word} (hw : w.memory.Sound)
    (h : w.memory.Holds frame start words) (hs : Spares low w w')
    (hbelow : frame.toNat + 8 * (start + words.length) ≤ low) :
    w'.memory.Holds frame start words := by
  refine hs.evolves.holds hw h ?_
  intro n hn hlow
  have := hn.2
  omega

/-- Reading one parameter of a frame takes at most what its address leads to. -/
def FetchSpared (frame : Word) (low : Nat) (one : Nat → Nat → Passing → Run ArgValue) : Prop :=
  ∀ {w : World} {start : Nat} {passing : Passing} {words : List Word} (index : Nat),
    frame.toNat + 8 * start < 2 ^ 64 → w.memory.Holds frame start words →
    words.length = passing.frameWords →
    (∀ schema, passing = .indirect schema → low ≤ (words.headD 0).toNat) →
    Spared low (one start index passing) w fun arg _ => arg.Fits passing

theorem fetchSpared_fetchParam :
    FetchSpared frame low fun start _ passing => fetchParam frame start passing := by
  intro w start passing words index hroom hholds hlen hlow
  cases passing with
  | direct schema => exact .bind_ok (loadAll_ok hholds hlen) (spared_pure hlen)
  | indirect schema =>
    obtain ⟨a, rfl⟩ := List.length_eq_one_iff.mp hlen
    refine .bind_ok (loadAt_ok hholds) ?_
    exact (spared_takeWords (hlow schema rfl)).bind fun _ _ _ hwords => spared_pure hwords
  | address =>
    obtain ⟨a, rfl⟩ := List.length_eq_one_iff.mp hlen
    exact .bind_ok (loadAt_ok hholds) (spared_pure trivial)

theorem fetchSpared_decodeField :
    FetchSpared frame low fun start index passing =>
      decodeField frame index (FrameField.ofPassing start passing) passing := by
  intro w start passing words index hroom hholds hlen hlow
  have haddr : (liftM (addWord frame (UInt64.ofNat (8 * start))) : Run Word) w
      = .ok (frame.plus (8 * start)) w := by
    rw [addWord_ofNat hroom]
    rfl
  cases passing with
  | direct schema =>
    exact .bind_ok haddr (.bind_ok (inMemory_ok (hholds.readWords_plus hlen)) (spared_pure hlen))
  | indirect schema =>
    obtain ⟨a, rfl⟩ := List.length_eq_one_iff.mp hlen
    refine .bind_ok haddr (.bind_ok (read_ok hholds.read) ?_)
    exact (spared_takeWords (hlow schema rfl)).bind fun _ _ _ hwords => spared_pure hwords
  | address =>
    obtain ⟨a, rfl⟩ := List.length_eq_one_iff.mp hlen
    exact .bind_ok haddr (.bind_ok (read_ok hholds.read) (spared_pure trivial))

/-- Reading the parameters of a frame one after the other takes only what their addresses
lead to. -/
theorem spared_fetchAll (one : Nat → Nat → Passing → Run ArgValue)
    (all : Nat → Nat → List Carrier → Run (List ArgValue))
    (hnil : ∀ start index, all start index [] = pure [])
    (hcons : ∀ start index c cs, all start index (c :: cs) = (do
      let first ← one start index c.passing
      let others ← all (start + c.passing.frameWords) (index + 1) cs
      return first :: others))
    (hone : FetchSpared frame low one) (hlow : low < 2 ^ 64) :
    ∀ {carriers : List Carrier} {w : World} {start : Nat} {words : List Word} (index : Nat),
      w.memory.Sound → w.memory.Holds frame start words → words.length = frameWords carriers →
      frame.toNat + 8 * (start + words.length) ≤ low →
      AddressesAbove Passing.frameWords low carriers words →
      Spared low (all start index carriers) w fun args _ => Shaped carriers args
  | [], w, start, words, index, _, _, _, _, _ => by
    rw [hnil]
    exact spared_pure trivial
  | c :: cs, w, start, words, index, hw, hholds, hlen, hbelow, haddresses => by
    rw [frameWords_cons] at hlen
    have htake : (words.take c.passing.frameWords).length = c.passing.frameWords := by
      rw [List.length_take]
      omega
    have hdrop : (words.drop c.passing.frameWords).length = frameWords cs := by
      rw [List.length_drop]
      omega
    have hsplit := hholds
    rw [← List.take_append_drop c.passing.frameWords words, Memory.holds_append, htake] at hsplit
    rw [hcons]
    have hfirst : Spared low (one start index c.passing) w fun arg _ => arg.Fits c.passing := by
      refine hone index (by omega) hsplit.1 htake fun schema hp => ?_
      have hhead := haddresses.1 schema hp
      rw [hp] at htake ⊢
      cases words with
      | nil => exact hhead
      | cons a rest => exact hhead
    refine hfirst.bind fun arg w₁ hs₁ hfits => ?_
    -- the words behind the parameter lie below everything that was taken for it
    have hholds₁ := holds_of_spares hw hsplit.2 hs₁ (by omega)
    refine (spared_fetchAll one all hnil hcons hone hlow (index + 1) (hs₁.evolves.sound hw) hholds₁
      hdrop
      (by omega) haddresses.2).bind fun args w₂ _ hshaped => ?_
    exact spared_pure ⟨hfits, hshaped⟩

theorem FrameAbove.params_le (h : parts.InFrame s w.memory frame results) :
    s.paramsAt + parts.params.length ≤ s.frameEnd := by
  rw [h.fits.params]
  unfold Lowered.frameEnd Lowered.resultsAt Lowered.witnessAt Lowered.receiverAt
    Lowered.bindingsAt
  omega

/-- A thunk reads the parts that its caller stored. -/
theorem spared_fetchFrame (h : FrameAbove s floor low frame parts w) (hw : w.memory.Sound) :
    Spared low (fetchFrame s frame) w fun r _ =>
      r.1 = parts.withParams [] ∧ Shaped s.carriers r.2 := by
  obtain ⟨results, hin⟩ := h.inFrame
  have hbelow := h.below
  have hend := FrameAbove.params_le hin
  obtain ⟨herror, hindirect, hparams, hbindings, hreceiver, hwitness, -⟩ := hin.segments
  refine .bind_ok (loadAt_ok hreceiver) (.bind_ok (readWitness_ok hin.fits.witness hwitness) ?_)
  refine .bind_ok (readField_ok hin.fits.error herror)
    (.bind_ok (readField_ok hin.fits.indirect hindirect) ?_)
  refine (spared_fetchAll _ (fun start _ => fetchParams frame start) (fun _ _ => rfl)
    (fun _ _ _ _ => rfl) fetchSpared_fetchParam h.low_lt 0 hw hparams hin.fits.params (by omega)
    h.addresses).bind fun args w₁ hs₁ hshaped => ?_
  have hbindings₁ : w₁.memory.Holds frame s.bindingsAt parts.bindings := by
    refine holds_of_spares hw hbindings hs₁ ?_
    rw [hin.fits.bindings]
    unfold Lowered.frameEnd Lowered.resultsAt Lowered.witnessAt Lowered.receiverAt at hbelow
    omega
  refine .bind_ok (loadAll_ok hbindings₁ hin.fits.bindings) (spared_pure ⟨?_, hshaped⟩)
  rw [Parts.withParams, hin.fits.resume]

/-- An implementation reads the addresses that its caller stored. -/
theorem spared_decodeFrame (h : FrameAbove s floor low frame parts w) (hw : w.memory.Sound) :
    Spared low (decodeFrame s s.frameLayout frame) w fun inc _ =>
      inc.errorSlot = parts.errorSlot ∧ inc.indirectReturn = parts.indirectReturn := by
  obtain ⟨results, hin⟩ := h.inFrame
  have hbelow := h.below
  have hend := FrameAbove.params_le hin
  obtain ⟨herror, hindirect, hparams, -, -, hwitness, -⟩ := hin.segments
  refine (spared_checkFrame _ _).bind fun _ w₁ _ hw₁ => ?_
  subst hw₁
  refine .bind_ok (readWitness_ok hin.fits.witness hwitness) ?_
  have hread : ∀ {α : Type} {attempt : Attempt α} (w : World),
      Spared low (liftM attempt : Run α) w fun _ w' => w' = w :=
    fun _ => spared_liftM fun _ _ => rfl
  -- receiver and bindings matter to nobody here
  refine (hread w₁).bind fun _ w₂ _ hw₂ => ?_
  subst hw₂
  refine (spared_read (Q := fun _ w' => w' = w₂) fun _ _ => rfl).bind fun _ w₃ _ hw₃ => ?_
  subst hw₃
  refine (hread w₃).bind fun _ w₄ _ hw₄ => ?_
  subst hw₄
  refine (spared_inMemory (Q := fun _ w' => w' = w₄) fun _ _ => rfl).bind fun _ w₅ _ hw₅ => ?_
  subst hw₅
  refine .bind_ok (readField_ok hin.fits.error herror)
    (.bind_ok (readField_ok hin.fits.indirect hindirect) ?_)
  refine (spared_fetchAll _ (fun start index carriers =>
    decodeFields frame index ((frameFields start carriers).zip carriers)) (fun _ _ => rfl)
    (fun _ _ _ _ => rfl) fetchSpared_decodeField h.low_lt 0 hw hparams hin.fits.params (by omega)
    h.addresses).bind fun args _ _ _ => ?_
  exact spared_pure ⟨rfl, rfl⟩

/-! ### Filling a frame -/

theorem spared_storeAt (hframe : floor ≤ frame.toNat) (offset : Nat) (v : Word) :
    Spared floor (storeAt frame offset v) w Anything :=
  (spared_liftM (Q := fun a _ => floor ≤ a.toNat) fun _ ha =>
    Nat.le_trans hframe (le_of_addWord ha)).bind fun _ _ _ ha => spared_write ha

theorem spared_storeAll (hframe : floor ≤ frame.toNat) (words : List Word) :
    ∀ {w : World} (offset : Nat), Spared floor (storeAll frame offset words) w Anything := by
  induction words with
  | nil => exact fun _ => spared_pure trivial
  | cons v rest ih =>
    intro w offset
    refine Spared.bind (Q := fun a _ => floor ≤ a.toNat) (spared_liftM fun _ ha =>
      Nat.le_trans hframe (le_of_addWord ha)) fun a _ _ ha => ?_
    exact (spared_write ha).bind fun _ _ _ _ => ih _

theorem spared_writeField (hframe : floor ≤ frame.toNat) (offset : Option Nat)
    (value : Option Word) : Spared floor (writeField frame offset value) w Anything := by
  cases offset with
  | none => exact spared_pure trivial
  | some offset =>
    cases value with
    | none => exact spared_pure trivial
    | some v => exact spared_storeAt hframe offset v

theorem spared_fillParam (hw : Firm floor w) (hframe : floor ≤ frame.toNat) (start : Nat)
    (arg : ArgValue) (passing : Passing) :
    Spared floor (fillParam frame start arg passing) w Anything := by
  cases passing with
  | direct schema => exact (spared_storeAll hframe _ _).bind fun _ _ _ _ => spared_pure trivial
  | indirect schema =>
    refine (spared_spill hw _).bind fun _ _ _ _ => ?_
    exact (spared_storeAt hframe _ _).bind fun _ _ _ _ => spared_pure trivial
  | address => exact (spared_storeAt hframe _ _).bind fun _ _ _ _ => spared_pure trivial

theorem spared_fillParams (hframe : floor ≤ frame.toNat) (args : List (Carrier × ArgValue)) :
    ∀ {w : World} (start : Nat), Firm floor w →
      Spared floor (fillParams frame start args) w Anything := by
  induction args with
  | nil => exact fun _ _ => spared_pure trivial
  | cons a rest ih =>
    intro w start hw
    refine (spared_fillParam hw hframe _ _ _).bind fun _ w₁ hs₁ _ => ?_
    exact (ih _ (hs₁.firm hw)).bind fun _ _ _ _ => spared_pure trivial

theorem spared_fillFrame (hw : Firm floor w) (hframe : floor ≤ frame.toNat) (s : Lowered)
    (parts : Parts Word) (args : List ArgValue) :
    Spared floor (fillFrame s frame parts args) w Anything := by
  refine (spared_storeAt hframe _ _).bind fun _ w₁ hs₁ _ => ?_
  refine (spared_writeField hframe _ _).bind fun _ w₂ hs₂ _ => ?_
  refine (spared_writeField hframe _ _).bind fun _ w₃ hs₃ _ => ?_
  refine (spared_writeField hframe _ _).bind fun _ w₄ hs₄ _ => ?_
  refine (spared_writeField hframe _ _).bind fun _ w₅ hs₅ _ => ?_
  have hw₅ := (hs₁.trans (hs₂.trans (hs₃.trans (hs₄.trans hs₅)))).firm hw
  refine (spared_fillParams hframe _ _ hw₅).bind fun _ _ _ _ => ?_
  exact spared_storeAll hframe _ _

/-! ### Sending a frame -/

theorem Fills.spared {x : Run Unit} {parts' : Parts Word} (h : Fills s x w frame parts' results)
    (hframe : floor ≤ frame.toNat) :
    Spared floor x w fun _ w' => parts'.InFrame s w'.memory frame results := by
  obtain ⟨m', hrun, hev, hin, -⟩ := h
  refine Step.ends_of_ok hrun ⟨(steady_setMemory w m').spares (hev.mono fun n _ hn => ?_), hin⟩
  exact Nat.le_trans hframe hn.1

/-- Putting an argument into a frame, whatever the argument is. -/
theorem spared_frameArg {j start : Nat} {pre blank post : List Word} {passing : Passing}
    (hw : Firm low w) (hlow : low < 2 ^ 64) (hframe : floor ≤ frame.toNat) (hfloor : floor ≤ low)
    (hholds : w.memory.Holds frame j (pre ++ blank ++ post))
    (hblank : blank.length = passing.frameWords) (hstart : start = j + pre.length)
    (hbelow : frame.toNat + 8 * (j + (pre ++ blank ++ post).length) ≤ low) (index : Nat)
    (arg : ArgValue) :
    Spared floor (frameArg frame index (FrameField.ofPassing start passing) passing arg) w
      fun _ w' => ∃ encoded, encoded.length = blank.length ∧
        w'.memory.Holds frame j (pre ++ encoded ++ post) ∧
        ∀ schema, passing = .indirect schema → low ≤ (encoded.headD 0).toNat := by
  simp only [List.length_append] at hbelow
  -- storing an address into the field of a parameter
  have hstore : ∀ (w : World) (v : Word), w.memory.Sound → blank.length = 1 →
      w.memory.Holds frame j (pre ++ blank ++ post) →
      Spared floor (storeAt frame (8 * start) v) w fun _ w' =>
        w'.memory.Holds frame j (pre ++ [v] ++ post) := by
    intro w v hw hone hholds
    obtain ⟨u, rfl⟩ := List.length_eq_one_iff.mp hone
    obtain ⟨m', hrun, hev, hholds', -⟩ := storeAt_ok (v := v) hw hholds hstart
    refine Step.ends_of_ok hrun ⟨(steady_setMemory w m').spares (hev.mono fun n _ hn => ?_), hholds'⟩
    have := hn.1
    omega
  cases passing with
  | direct schema =>
    cases arg with
    | address word => exact spared_fail _
    | value words =>
      by_cases hlen : words.length = schema.components.length
      case neg =>
        rw [FrameField.ofPassing, frameArg, if_neg hlen]
        exact spared_fail _
      obtain ⟨m', hrun, hev, hholds', -⟩ :=
        storeAll_ok hw.sound hholds (hlen.trans hblank.symm) hstart
      rw [← writeWords_eq (by omega) (by have := hlen.trans hblank.symm; omega)] at hrun
      have hstored : Spared floor (do
          withMemory (Memory.writeWords (← addWord frame (UInt64.ofNat (8 * start))) words) :
          Run Unit) w fun _ w' => w'.memory.Holds frame j (pre ++ words ++ post) := by
        refine Step.ends_of_ok hrun
          ⟨(steady_setMemory w m').spares (hev.mono fun n _ hn => ?_), hholds'⟩
        have := hn.1
        omega
      have heq : frameArg frame index (.inline (8 * start) schema.components) (.direct schema)
          (.value words) = (do
            withMemory (Memory.writeWords (← addWord frame (UInt64.ofNat (8 * start))) words)
            : Run Unit) >>= fun _ => pure [] := by
        rw [frameArg, if_pos hlen, bind_assoc]
      rw [FrameField.ofPassing, heq]
      refine hstored.bind fun _ _ _ h => spared_pure ⟨words, hlen.trans hblank.symm, h, ?_⟩
      exact fun _ h => by cases h
  | indirect schema =>
    cases arg with
    | address word => exact spared_fail _
    | value words =>
      -- what is spilled lies above the frame
      have hspill : Spared floor (spill words) w fun r w₁ =>
          Spares low w w₁ ∧ low ≤ r.1.toNat :=
        ((spared_spill hw words).imp fun _ _ hs hr => ⟨hs, hr⟩).mono hfloor
      refine hspill.bind fun r w₁ _ hr => ?_
      have hholds₁ := holds_of_spares hw.sound hholds hr.1
        (by simp only [List.length_append]; exact hbelow)
      refine Spared.bind_assoc (hstore w₁ r.1 (hr.1.evolves.sound hw.sound) hblank hholds₁)
        fun _ w₂ _ h₂ => spared_pure ?_
      exact ⟨[r.1], hblank.symm, h₂, fun _ _ => hr.2⟩
  | address =>
    cases arg with
    | value words => exact spared_fail _
    | address word =>
      refine Spared.bind_assoc (hstore w word hw.sound hblank hholds) fun _ w₁ _ h₁ => spared_pure ?_
      exact ⟨[word], hblank.symm, h₁, fun _ h => by cases h⟩

theorem Spares.firm_low (h : Spares floor w w') (hw : Firm low w) : Firm low w' :=
  ⟨h.linked hw.linked, Nat.le_trans hw.floor_le h.evolves.next⟩

theorem spared_frameArgs {frame : Word} (hlow : low < 2 ^ 64) (hframe : floor ≤ frame.toNat)
    (hfloor : floor ≤ low) :
    ∀ {carriers : List Carrier} {args : List ArgValue} {w : World} {j start : Nat}
      {pre blank post : List Word} (index : Nat), Firm low w → args.length = carriers.length →
      w.memory.Holds frame j (pre ++ blank ++ post) → blank.length = frameWords carriers →
      start = j + pre.length → frame.toNat + 8 * (j + (pre ++ blank ++ post).length) ≤ low →
      Spared floor (frameArgs frame index ((frameFields start carriers).zip (carriers.zip args))) w
        fun _ w' => ∃ encoded, encoded.length = blank.length ∧
          w'.memory.Holds frame j (pre ++ encoded ++ post) ∧
          AddressesAbove Passing.frameWords low carriers encoded
  | [], _, w, _, _, _, blank, _, _, _, _, hholds, _, _, _ =>
    spared_pure ⟨blank, rfl, hholds, trivial⟩
  | _ :: _, [], _, _, _, _, _, _, _, _, hlen, _, _, _, _ => by cases hlen
  | c :: cs, arg :: args, w, j, start, pre, blank, post, index, hw, hlen, hholds, hblank, hstart,
      hbelow => by
    rw [frameWords_cons] at hblank
    obtain ⟨first, rest, rfl, hfirst⟩ : ∃ first rest, blank = first ++ rest ∧
        first.length = c.passing.frameWords :=
      ⟨blank.take c.passing.frameWords, blank.drop c.passing.frameWords,
        (List.take_append_drop _ _).symm, by
          rw [List.length_take]
          omega⟩
    rw [List.length_append, hfirst] at hblank
    have hrest : rest.length = frameWords cs := by omega
    have hregroup : ∀ encoded : List Word,
        pre ++ (encoded ++ rest) ++ post = pre ++ encoded ++ (rest ++ post) := by
      intro encoded
      simp only [List.append_assoc]
    rw [hregroup] at hholds hbelow
    rw [frameFields, List.zip_cons_cons, List.zip_cons_cons, frameArgs]
    refine (spared_frameArg hw hlow hframe hfloor hholds hfirst hstart hbelow index arg).bind
      fun _ w₁ hs₁ h₁ => ?_
    obtain ⟨encoded₁, hlen₁, hholds₁, hhead₁⟩ := h₁
    have hgroup₁ : pre ++ encoded₁ ++ (rest ++ post) = (pre ++ encoded₁) ++ rest ++ post := by
      simp only [List.append_assoc]
    rw [hgroup₁] at hholds₁
    simp only [List.length_append] at hbelow
    refine (spared_frameArgs hlow hframe hfloor (index + 1) (hs₁.firm_low hw) (Nat.succ.inj hlen)
      hholds₁ hrest (by simp only [List.length_append]; omega)
      (by simp only [List.length_append]; omega)).bind fun _ w₂ _ h₂ => spared_pure ?_
    obtain ⟨encoded₂, hlen₂, hholds₂, haddresses₂⟩ := h₂
    refine ⟨encoded₁ ++ encoded₂, by simp only [List.length_append, hlen₁, hlen₂], ?_, ?_, ?_⟩
    · simp only [List.append_assoc] at hholds₂ ⊢
      exact hholds₂
    · intro schema hp
      have hone : encoded₁.length = 1 := by rw [hlen₁, hfirst, hp]; rfl
      obtain ⟨a, rfl⟩ := List.length_eq_one_iff.mp hone
      exact hhead₁ schema hp
    · rw [← hfirst, ← hlen₁, List.drop_left]
      exact haddresses₂

/-- Filling a frame from outside, whatever the arguments are. -/
theorem spared_sentFrame {c : LogicalCall} {errorSlot indirectReturn : Option Word}
    {old : Parts Word} (hw : Firm low w) (hlow : low < 2 ^ 64) (hframe : floor ≤ frame.toNat)
    (h : old.InFrame s w.memory frame results) (hbelow : frame.toNat + 8 * s.frameEnd ≤ low)
    (hargs : c.args.length = s.carriers.length) (hbindings : c.bindings.length = s.bindingCount)
    (herror : errorSlot.isSome = s.throws) (hindirect : indirectReturn.isSome = s.hasIndirectReturn)
    (hslot : ∀ a ∈ errorSlot, floor ≤ a.toNat) (hplace : ∀ d ∈ indirectReturn, floor ≤ d.toNat) :
    Spared floor (do
        writeField frame s.frameLayout.errorSlot errorSlot
        writeField frame s.frameLayout.indirectReturn indirectReturn
        let spilled ← frameArgs frame 0 (s.frameLayout.args.zip (s.carriers.zip c.args))
        withMemory (Memory.writeWords (← addWord frame (UInt64.ofNat s.frameLayout.bindings))
          c.bindings)
        write (← addWord frame (UInt64.ofNat s.frameLayout.localContext)) c.receiver
        frameWitness s.frameLayout frame c
        return spilled) w
      fun _ w' => ∃ parts, FrameAbove s floor low frame parts w' ∧
        parts.receiver = c.receiver ∧ parts.witness = if s.witness then c.witness else none := by
  have hfloor : floor ≤ low := by omega
  refine ((fills_error hw.sound h herror).spared hframe).bind fun _ w₁ hs₁ h₁ => ?_
  have hw₁ := hs₁.firm_low hw
  refine ((fills_indirect hw₁.sound h₁ hindirect).spared hframe).bind fun _ w₂ hs₂ h₂ => ?_
  have hw₂ := hs₂.firm_low hw₁
  -- the parameters
  have hf := h₂.fits
  have hparams : Spared floor (frameArgs frame 0 (s.frameLayout.args.zip (s.carriers.zip c.args))) w₂
      fun _ w₃ => ∃ encoded, AddressesAbove Passing.frameWords low s.carriers encoded ∧
        ({ old with errorSlot, indirectReturn, params := encoded } : Parts Word).InFrame s
          w₃.memory frame results := by
    have hlist : ∀ params : List Word,
        ({ old with errorSlot, indirectReturn, params } : Parts Word).toFrame ++ results
          = (errorSlot.toList ++ indirectReturn.toList) ++ params
            ++ (old.bindings ++ [old.receiver] ++ Parts.witnessList old.witness ++ results) := by
      intro params
      simp only [Parts.toFrame, List.append_assoc]
    have hholds := h₂.holds
    have hend : s.errorAt + (({ old with errorSlot, indirectReturn } : Parts Word).toFrame
        ++ results).length = s.frameEnd := by
      rw [List.length_append, Lowered.frameEnd, h₂.length_results, ← hf.length_toFrame,
        Nat.add_assoc]
    rw [hlist old.params] at hholds hend
    have hstart : s.paramsAt
        = s.errorAt + (errorSlot.toList ++ indirectReturn.toList).length := by
      rw [List.length_append, Parts.length_option_toList herror,
        Parts.length_option_toList hindirect, Lowered.paramsAt, Lowered.indirectAt]
      omega
    refine (spared_frameArgs hlow hframe hfloor 0 hw₂ hargs hholds hf.params hstart
      (by rw [hend]; exact hbelow)).imp fun _ w₃ _ h₃ => ?_
    obtain ⟨encoded, hlen, hholds₃, haddresses⟩ := h₃
    refine ⟨encoded, haddresses, ⟨hf.resume, hf.indirect, hlen.trans hf.params, hf.bindings,
      hf.error, hf.witness⟩, h₂.length_results, ?_⟩
    rw [hlist encoded]
    exact hholds₃
  refine hparams.bind fun spilled w₃ hs₃ h₃ => ?_
  obtain ⟨encoded, haddresses, h₃⟩ := h₃
  have hw₃ := hs₃.firm_low hw₂
  have hrooms : s.bindingsAt + s.bindingCount < s.frameEnd := by
    unfold Lowered.frameEnd Lowered.resultsAt Lowered.witnessAt Lowered.receiverAt
    omega
  have hstored := (fills_bindings hw₃.sound h₃ hbindings).spared hframe
  rw [← writeWords_eq (by omega) (by omega)] at hstored
  refine Spared.bind_assoc hstored fun _ w₄ hs₄ h₄ => ?_
  have hw₄ := hs₄.firm_low hw₃
  refine Spared.bind_assoc ((fills_receiver hw₄.sound h₄ c.receiver).spared hframe)
    fun _ w₅ hs₅ h₅ => ?_
  have hw₅ := hs₅.firm_low hw₄
  by_cases hwitness : s.witness = true → c.witness.isSome = true
  · rw [frameWitness_eq hwitness]
    refine ((fills_witness hw₅.sound h₅ (o := if s.witness then c.witness else none) ?_).spared
      hframe).bind fun _ w₆ _ h₆ => spared_pure ?_
    · cases hsw : s.witness with
      | false => rfl
      | true => exact hwitness hsw
    · exact ⟨_, ⟨⟨results, h₆⟩, hframe, hbelow, hlow, ⟨hslot, hplace⟩, haddresses⟩, rfl, rfl⟩
  · -- a frame with room for a witness, and none to be sent
    obtain ⟨hsw, hnone⟩ := Classical.not_imp.mp hwitness
    rw [Bool.not_eq_true, Option.isSome_eq_false_iff, Option.isNone_iff_eq_none] at hnone
    have heq : frameWitness s.frameLayout frame c = fail (.argumentShape 0) := by
      simp only [frameWitness, Lowered.frameLayout, hsw, if_true, hnone]
    rw [heq]
    exact (spared_fail (Q := fun _ _ => False) _).bind fun _ _ _ h => h.elim

end World

end Dispatch
