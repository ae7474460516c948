import Dispatch.Proofs.FlatArguments
import Dispatch.Proofs.World

/-!
# Arguments on their way

Between a caller and a callee, arguments are words, and some of these words are
addresses of memory that holds the components.  `Carried` says which arguments a list
of words carries.  Encoding establishes it, decoding uses it up: the arguments come
out and the memory that held them is drained.  Small integers lose the bits that they
do not have on the way through registers.

## Main definitions

* `World.Exhausted` — memory has outgrown the addresses that pointers can hold.
* `Carrier.Sound` — a parameter that code and machine agree on.
* `ArgValue.clip`, `clipAll` — what is left of arguments after a trip in registers.
* `Carries`, `Carried` — words that carry arguments.

## Main results

* `World.ends_flatArgs` — encoding arguments.
* `World.decodeAll_ok` — decoding them again.
-/

namespace Dispatch

open Attempt

/-! ### Room -/

namespace World

variable {α : Type} {w : World} {Q : α → World → Prop} {E : Fault → World → Prop}

/-- Memory has outgrown the addresses that a signed pointer can hold. -/
def Exhausted (w : World) : Prop := 2 ^ 48 < w.memory.next.toNat

/-- Allocation fails only when there is no room. -/
theorem ends_alloc {bytes : Nat} (hb : bytes < Size.limit) {Q : Word → World → Prop}
    (hQ : w.memory.next.toNat + Region.extent bytes + Region.gapBytes < 2 ^ 64 →
      Q w.memory.next (w.setMemory (w.memory.allocated bytes))) :
    Step.Ends (withMemory (Memory.alloc bytes)) w Q fun _ w' => Exhausted w' := by
  rw [ends_withMemory]
  rcases Memory.alloc_error_or_ok (m := w.memory) hb with ⟨f, hrun, hfull⟩ | ⟨hroom, hrun⟩
  · refine Step.ends_of_error hrun ?_
    rw [setMemory_memory]
    unfold Exhausted
    omega
  · exact Step.ends_of_ok hrun (hQ hroom)

theorem ends_allocWords {words : Nat} (hb : 8 * words < Size.limit) {Q : Word → World → Prop}
    (hQ : w.memory.next.toNat + Region.extent (words * 8) + Region.gapBytes < 2 ^ 64 →
      Q w.memory.next (w.setMemory (w.memory.allocated (words * 8)))) :
    Step.Ends (withMemory (Memory.allocWords words)) w Q fun _ w' => Exhausted w' := by
  rw [Memory.allocWords_eq (by omega)]
  exact ends_alloc (by omega) hQ

end World

/-! ### What words carry -/

/-- Code and machine agree on how the parameter is passed, and a spilled value has a
size. -/
structure Carrier.Sound (c : Carrier) : Prop where
  packed : ∀ schema, c.passing = .direct schema → schema.Packed
  sized : ∀ schema, c.passing = .indirect schema →
    8 * schema.components.length < Size.limit

/-- What is left of an argument after a trip in registers. -/
def ArgValue.clip : ArgValue → Passing → ArgValue
  | .value words, .direct schema => .value (Scalar.clip schema.components words)
  | arg, _ => arg

/-- What is left of arguments after a trip in registers. -/
def clipAll (carriers : List Carrier) (args : List ArgValue) : List ArgValue :=
  List.zipWith (fun c arg => arg.clip c.passing) carriers args

/-- The encoded words of components that travel in registers. -/
def Schema.InRegisters (schema : Schema) (words encoded : List Word) : Prop :=
  ∃ sent, sent.length = schema.components.length ∧ encoded = schema.pack sent ∧
    words = Scalar.clip schema.components sent

/-- The words of components that travel in a frame. -/
def Schema.InFrame (schema : Schema) (words encoded : List Word) : Prop :=
  words.length = schema.components.length ∧ encoded = words

/-- The addresses of consecutive words. -/
def spillWords (base : Word) (count : Nat) : List Word :=
  (List.range count).map fun k => base.plus (8 * k)

theorem mem_spillWords {base a : Word} {count : Nat} (ha : a ∈ spillWords base count) :
    ∃ k, k < count ∧ a = base.plus (8 * k) := by
  obtain ⟨k, hk, rfl⟩ := List.mem_map.mp ha
  exact ⟨k, List.mem_range.mp hk, rfl⟩

/-- The words `encoded` carry the argument.  If it was spilled, the memory that holds it
lies between `low` and `high` and consists of the words `spilled`. -/
def Carries (direct : Schema → List Word → List Word → Prop) (m : Memory) (low high : Nat) :
    Passing → ArgValue → List Word → List Word → Prop
  | .direct schema, .value words, encoded, spilled => direct schema words encoded ∧ spilled = []
  | .indirect schema, .value words, encoded, spilled =>
    words.length = schema.components.length ∧ ∃ a, encoded = [a] ∧ low ≤ a.toNat ∧
      a.toNat + 8 * words.length ≤ high ∧ m.Holds a 0 words ∧ spilled = spillWords a words.length
  | .address, .address a, encoded, spilled => encoded = [a] ∧ spilled = []
  | _, _, _, _ => False

/-- The words carry the arguments, each in memory above the one before. -/
def Carried (direct : Schema → List Word → List Word → Prop) (m : Memory) :
    Nat → Nat → List Carrier → List ArgValue → List Word → List Word → Prop
  | low, high, [], [], encoded, spilled => low ≤ high ∧ encoded = [] ∧ spilled = []
  | low, high, c :: cs, arg :: args, encoded, spilled =>
    ∃ mid encoded₁ encoded₂ spilled₁ spilled₂, low ≤ mid ∧ encoded = encoded₁ ++ encoded₂ ∧
      spilled = spilled₁ ++ spilled₂ ∧ Carries direct m low mid c.passing arg encoded₁ spilled₁ ∧
      Carried direct m mid high cs args encoded₂ spilled₂
  | _, _, _, _, _, _ => False

section Carried

variable {direct : Schema → List Word → List Word → Prop} {m m' : Memory} {low high : Nat}
  {passing : Passing} {arg : ArgValue} {args : List ArgValue} {carriers : List Carrier}
  {encoded spilled : List Word} {changed : Nat → Prop}

theorem Carries.evolves (h : Carries direct m low high passing arg encoded spilled)
    (hev : m.Evolves changed m') (hm : m.Sound)
    (hc : ∀ n, low ≤ n → n < high → ¬ changed n) :
    Carries direct m' low high passing arg encoded spilled := by
  unfold Carries at *
  split at h
  · exact h
  · obtain ⟨hlen, a, hnative, hlow, hhigh, hholds, hspilled⟩ := h
    refine ⟨hlen, a, hnative, hlow, hhigh, hev.holds hm hholds ?_, hspilled⟩
    rintro n ⟨h1, h2⟩
    exact hc n (by omega) (by omega)
  · exact h
  · exact h.elim

theorem Carried.le (h : Carried direct m low high carriers args encoded spilled) : low ≤ high := by
  induction carriers generalizing low args encoded spilled with
  | nil =>
    cases args with
    | nil => exact h.1
    | cons arg args => exact h.elim
  | cons c cs ih =>
    cases args with
    | nil => exact h.elim
    | cons arg args =>
      obtain ⟨mid, _, _, _, _, hmid, -, -, -, hrest⟩ := h
      exact Nat.le_trans hmid (ih hrest)

/-- Arguments are still carried when the memory that holds them is the same. -/
theorem Carried.evolves (h : Carried direct m low high carriers args encoded spilled)
    (hev : m.Evolves changed m') (hm : m.Sound)
    (hc : ∀ n, low ≤ n → n < high → ¬ changed n) :
    Carried direct m' low high carriers args encoded spilled := by
  induction carriers generalizing low args encoded spilled with
  | nil =>
    cases args with
    | nil => exact h
    | cons arg args => exact h.elim
  | cons c cs ih =>
    cases args with
    | nil => exact h.elim
    | cons arg args =>
      obtain ⟨mid, n₁, n₂, s₁, s₂, hmid, hn, hs, hfirst, hrest⟩ := h
      have hle := hrest.le
      exact ⟨mid, n₁, n₂, s₁, s₂, hmid, hn, hs,
        hfirst.evolves hev hm fun n h1 h2 => hc n h1 (by omega),
        ih hrest fun n h1 h2 => hc n (by omega) h2⟩

theorem Carries.low_le (h : Carries direct m low high passing arg encoded spilled) :
    ∀ a ∈ spilled, low ≤ a.toNat := by
  unfold Carries at h
  split at h
  · rw [h.2]
    simp
  · obtain ⟨-, a, -, hlow, -, hholds, rfl⟩ := h
    intro b hb
    obtain ⟨k, hk, rfl⟩ := mem_spillWords hb
    have hroom := hholds.room
    rw [Word.toNat_plus (by omega)]
    omega
  · rw [h.2]
    simp
  · exact h.elim

theorem Carried.low_le (h : Carried direct m low high carriers args encoded spilled) :
    ∀ a ∈ spilled, low ≤ a.toNat := by
  induction carriers generalizing low args encoded spilled with
  | nil =>
    cases args with
    | nil =>
      rw [h.2.2]
      simp
    | cons arg args => exact h.elim
  | cons c cs ih =>
    cases args with
    | nil => exact h.elim
    | cons arg args =>
      obtain ⟨mid, _, _, _, _, hmid, -, rfl, hfirst, hrest⟩ := h
      intro a ha
      rcases List.mem_append.mp ha with ha | ha
      · exact hfirst.low_le a ha
      · exact Nat.le_trans hmid (ih hrest a ha)

theorem Carries.fits (h : Carries direct m low high passing arg encoded spilled)
    (hd : ∀ schema words encoded, direct schema words encoded →
      words.length = schema.components.length) : arg.Fits passing := by
  unfold Carries at h
  split at h
  · exact hd _ _ _ h.1
  · exact h.1
  · trivial
  · exact h.elim

theorem Carried.shaped (h : Carried direct m low high carriers args encoded spilled)
    (hd : ∀ schema words encoded, direct schema words encoded →
      words.length = schema.components.length) : Shaped carriers args := by
  induction carriers generalizing low args encoded spilled with
  | nil =>
    cases args with
    | nil => trivial
    | cons arg args => exact h.elim
  | cons c cs ih =>
    cases args with
    | nil => exact h.elim
    | cons arg args =>
      obtain ⟨_, _, _, _, _, -, -, -, hfirst, hrest⟩ := h
      exact ⟨hfirst.fits hd, ih hrest⟩

theorem Schema.InRegisters.length_eq {schema : Schema} {words encoded : List Word}
    (h : schema.InRegisters words encoded) : words.length = schema.components.length := by
  obtain ⟨sent, hlen, -, rfl⟩ := h
  exact Scalar.length_clip hlen

/-- Arguments that came in registers have nothing more to lose. -/
theorem Carried.clipAll_eq
    (h : Carried Schema.InRegisters m low high carriers args encoded spilled) :
    clipAll carriers args = args := by
  induction carriers generalizing low args encoded spilled with
  | nil =>
    cases args with
    | nil => rfl
    | cons arg args => exact h.elim
  | cons c cs ih =>
    cases args with
    | nil => exact h.elim
    | cons arg args =>
      obtain ⟨_, _, _, _, _, -, -, -, hfirst, hrest⟩ := h
      have hone : arg.clip c.passing = arg := by
        cases hp : c.passing with
        | direct schema =>
          rw [hp] at hfirst
          cases arg with
          | value words =>
            obtain ⟨⟨sent, -, -, rfl⟩, -⟩ := hfirst
            rw [ArgValue.clip, Scalar.clip_clip]
          | address a => exact hfirst.elim
        | indirect schema => cases arg <;> rfl
        | address => cases arg <;> rfl
      have hall := ih hrest
      simp only [clipAll] at hall
      simp only [clipAll, List.zipWith_cons_cons, hone, hall]

theorem Carries.length_registers
    (h : Carries Schema.InRegisters m low high passing arg encoded spilled)
    (hp : ∀ schema, passing = .direct schema → schema.Packed) :
    encoded.length = passing.registerWords := by
  cases passing with
  | direct schema =>
    cases arg with
    | value words =>
      obtain ⟨⟨sent, -, rfl, -⟩, -⟩ := h
      exact (hp schema rfl).length_pack sent
    | address a => exact h.elim
  | indirect schema =>
    cases arg with
    | value words =>
      obtain ⟨-, a, rfl, -⟩ := h
      rfl
    | address a => exact h.elim
  | address =>
    cases arg with
    | value words => exact h.elim
    | address a =>
      rw [h.1]
      rfl

theorem Carried.length_registers
    (h : Carried Schema.InRegisters m low high carriers args encoded spilled)
    (hc : ∀ c ∈ carriers, c.Sound) : encoded.length = registerWords carriers := by
  induction carriers generalizing low args encoded spilled with
  | nil =>
    cases args with
    | nil => rw [h.2.1]; rfl
    | cons arg args => exact h.elim
  | cons c cs ih =>
    cases args with
    | nil => exact h.elim
    | cons arg args =>
      obtain ⟨_, n₁, n₂, _, _, -, rfl, -, hfirst, hrest⟩ := h
      rw [List.length_append, registerWords_cons,
        hfirst.length_registers (hc c List.mem_cons_self).packed,
        ih hrest fun c' hc' => hc c' (List.mem_cons_of_mem _ hc')]

end Carried

/-! ### Encoding -/

namespace World

variable {w : World} {words : List Word} {carriers : List Carrier} {args : List ArgValue}

theorem wordAddresses_eq {base : Word} {count : Nat} (h : base.toNat + 8 * count ≤ 2 ^ 64) :
    wordAddresses base 0 count = .ok (spillWords base count) := by
  have key : ∀ (count start : Nat), base.toNat + 8 * (start + count) ≤ 2 ^ 64 →
      wordAddresses base start count
        = .ok ((List.range' start count).map fun k => base.plus (8 * k)) := by
    intro count
    induction count with
    | zero => exact fun _ _ => rfl
    | succ count ih =>
      intro start hb
      rw [wordAddresses, Memory.wordAddress_eq (by omega), ok_bind, ih (start + 1) (by omega),
        ok_bind, List.range'_succ, List.map_cons]
      rfl
  rw [key count 0 (by omega), spillWords, List.range_eq_range']

/-- Spilling puts words into memory of their own. -/
theorem ends_spill (hw : w.memory.Sound) (hsize : 8 * words.length < Size.limit) :
    Step.Ends (spill words) w (fun r w' => ∃ m', w' = w.setMemory m' ∧ r.1 = w.memory.next ∧
      r.2 = spillWords r.1 words.length ∧ w.memory.Evolves (fun _ => False) m' ∧
      m'.Holds r.1 0 words ∧ r.1.toNat + 8 * words.length ≤ m'.next.toNat)
      fun _ w' => Exhausted w' := by
  rw [spill, Step.ends_bind]
  refine ends_allocWords hsize fun hroom => ?_
  have hev : w.memory.Evolves (fun _ => False) (w.memory.allocated (words.length * 8)) :=
    Memory.evolves_allocated hroom
  have howns := Memory.owns_allocated w.memory (words.length * 8)
  obtain ⟨m', hrun, hev', hread, hreg, hnext⟩ := Memory.writeWords_ok (hev.sound hw)
    howns (show 0 + 8 * words.length ≤ words.length * 8 by omega)
  have hlt := howns.lt_next (hev.sound hw)
  have hn := (w.memory.allocated (words.length * 8)).next.toNat_lt
  rw [Word.plus_zero] at hrun hev' hread
  rw [Step.ends_bind, ends_withMemory]
  refine Step.ends_of_ok hrun ?_
  rw [Step.ends_bind, wordAddresses_eq (by omega), Step.ends_liftM_ok]
  refine ⟨m', rfl, rfl, rfl, hev.then hev' ?_, ?_, ?_⟩
  · rintro n hlow ⟨hhigh, -⟩
    omega
  · exact (Memory.holds_iff_readFrom (by simp only; omega)).mpr hread
  · rw [hnext]
    simp only
    omega

/-- Encoding an argument of the right shape. -/
theorem ends_flatArg {c : Carrier} {arg : ArgValue} (hc : c.Sound) (hfits : arg.Fits c.passing)
    (hw : w.memory.Sound) (index : Nat) :
    Step.Ends (flatArg index arg c.passing) w (fun r w' => ∃ m', w' = w.setMemory m' ∧
      w.memory.Evolves (fun _ => False) m' ∧
      Carries Schema.InRegisters m' w.memory.next.toNat m'.next.toNat c.passing
        (arg.clip c.passing) r.1 r.2)
      fun _ w' => Exhausted w' := by
  cases hp : c.passing with
  | direct schema =>
    rw [hp] at hfits
    cases arg with
    | address a => exact hfits.elim
    | value words =>
      have hpacked := hc.packed schema hp
      have hcarries : Carries Schema.InRegisters w.memory w.memory.next.toNat w.memory.next.toNat
          (.direct schema) (.value (Scalar.clip schema.components words)) (schema.pack words) [] :=
        ⟨⟨words, hfits, rfl, rfl⟩, rfl⟩
      rw [flatArg]
      cases hk : schema.nativeKinds with
      | nil =>
        have hnil : schema.pack words = [] := by
          have hlen := hpacked.length_pack words
          rw [hk] at hlen
          exact List.eq_nil_of_length_eq_zero hlen
        rw [hnil] at hcarries
        exact ⟨w.memory, rfl, .refl _ _, hcarries⟩
      | cons kind kinds =>
        rw [List.isEmpty_cons, if_neg (by decide), hpacked.encode hfits]
        exact ⟨w.memory, rfl, .refl _ _, hcarries⟩
  | indirect schema =>
    rw [hp] at hfits
    cases arg with
    | address a => exact hfits.elim
    | value words =>
      have hlen : words.length = schema.components.length := hfits
      have hsize := hc.sized schema hp
      rw [flatArg, Step.ends_bind]
      refine (ends_spill hw (by omega)).imp (fun r w' hr => ?_) fun _ _ h => h
      obtain ⟨m', rfl, hbase, hspilled, hev, hholds, hhigh⟩ := hr
      exact ⟨m', rfl, hev, hlen, r.1, rfl, Nat.le_of_eq (congrArg UInt64.toNat hbase).symm, hhigh,
        hholds, hspilled⟩
  | address =>
    rw [hp] at hfits
    cases arg with
    | value words => exact hfits.elim
    | address a => exact ⟨w.memory, rfl, .refl _ _, rfl, rfl⟩

/-- Encoding arguments of the right shapes. -/
theorem ends_flatArgs (hc : ∀ c ∈ carriers, c.Sound) (hshaped : Shaped carriers args)
    (hw : w.memory.Sound) (index : Nat) :
    Step.Ends (flatArgs index (carriers.zip args)) w (fun r w' => ∃ m', w' = w.setMemory m' ∧
      w.memory.Evolves (fun _ => False) m' ∧
      Carried Schema.InRegisters m' w.memory.next.toNat m'.next.toNat carriers
        (clipAll carriers args) r.1 r.2)
      fun _ w' => Exhausted w' := by
  induction carriers generalizing args w index with
  | nil =>
    cases args with
    | nil => exact ⟨w.memory, rfl, .refl _ _, Nat.le_refl _, rfl, rfl⟩
    | cons arg args => exact hshaped.elim
  | cons c cs ih =>
    cases args with
    | nil => exact hshaped.elim
    | cons arg args =>
      rw [List.zip_cons_cons, flatArgs, Step.ends_bind]
      refine (ends_flatArg (hc c List.mem_cons_self) hshaped.1 hw index).imp
        (fun r w' hr => ?_) fun _ _ h => h
      obtain ⟨m₁, rfl, hev₁, hfirst⟩ := hr
      rw [Step.ends_bind]
      refine (ih (fun c' hc' => hc c' (List.mem_cons_of_mem _ hc')) hshaped.2
        (w := w.setMemory m₁) (hev₁.sound hw) _).imp (fun r' w' hr => ?_) fun _ _ h => h
      obtain ⟨m₂, rfl, hev₂, hrest⟩ := hr
      refine ⟨m₂, rfl, hev₁.trans hev₂, m₁.next.toNat, r.1, r'.1, r.2, r'.2, hev₁.next, rfl, rfl,
        hfirst.evolves hev₂ (hev₁.sound hw) fun _ _ _ h => h, hrest⟩

/-! ### Decoding -/

/-- Decoding an argument drains the memory that holds it. -/
theorem decodeOne_ok {c : Carrier} {arg : ArgValue} {low high : Nat} {encoded spilled : List Word}
    (hc : c.Sound) (hw : w.memory.Sound)
    (h : Carries Schema.InRegisters w.memory low high c.passing arg encoded spilled) (index : Nat) :
    ∃ m', decodeOne index encoded c.passing w = .ok arg (w.setMemory m') ∧
      w.memory.Evolves (fun n => low ≤ n ∧ n < high) m' ∧
      (∀ a ∈ spilled, a.toNat < high ∧ a.toNat < w.memory.next.toNat ∧ m'.isDrained a = true) ∧
      m'.next = w.memory.next := by
  cases hp : c.passing with
  | direct schema =>
    rw [hp] at h
    cases arg with
    | address a => exact h.elim
    | value words =>
      obtain ⟨⟨sent, hlen, rfl, rfl⟩, rfl⟩ := h
      have hpacked := hc.packed schema hp
      refine ⟨w.memory, ?_, .refl _ _, by simp, rfl⟩
      rw [decodeOne, hpacked.decode_encode hlen]
      rfl
  | indirect schema =>
    rw [hp] at h
    cases arg with
    | address a => exact h.elim
    | value words =>
      obtain ⟨hlen, a, rfl, hlow, hhigh, hholds, rfl⟩ := h
      have hroom := hholds.room
      obtain ⟨m', hrun, hev, hdrained, -, hnext⟩ := Memory.takeWords_ok hw
        (show a.toNat + 8 * schema.components.length ≤ 2 ^ 64 by omega) (hholds.readWords hlen)
      refine ⟨m', ?_, hev.mono ?_, ?_, hnext⟩
      · rw [decodeOne, List.headD_cons, Step.bind_of_ok (withMemory_ok hrun)]
        rfl
      · rintro n - ⟨h1, h2⟩
        omega
      · intro b hb
        obtain ⟨k, hk, rfl⟩ := mem_spillWords hb
        have hread := hholds.reads k _ (List.getElem?_eq_getElem hk)
        rw [Nat.zero_add] at hread
        refine ⟨?_, hw.lt_next_of_isMapped (Memory.isMapped_of_read hread), hdrained k (by omega)⟩
        rw [Word.toNat_plus (by omega)]
        omega
  | address =>
    rw [hp] at h
    cases arg with
    | value words => exact h.elim
    | address a =>
      obtain ⟨rfl, rfl⟩ := h
      exact ⟨w.memory, rfl, .refl _ _, by simp, rfl⟩

/-- Decoding gives the arguments that the words carry, and drains the memory that
holds them. -/
theorem decodeAll_ok {low high : Nat} {encoded spilled : List Word}
    (hc : ∀ c ∈ carriers, c.Sound) (hw : w.memory.Sound)
    (h : Carried Schema.InRegisters w.memory low high carriers args encoded spilled) (index : Nat) :
    ∃ m', decodeAll index encoded carriers w = .ok args (w.setMemory m') ∧
      w.memory.Evolves (fun n => low ≤ n ∧ n < high) m' ∧
      (∀ a ∈ spilled, a.toNat < high ∧ a.toNat < w.memory.next.toNat ∧ m'.isDrained a = true) ∧
      m'.next = w.memory.next := by
  induction carriers generalizing low args encoded spilled w index with
  | nil =>
    cases args with
    | cons arg args => exact h.elim
    | nil =>
      obtain ⟨-, rfl, rfl⟩ := h
      exact ⟨w.memory, rfl, .refl _ _, by simp, rfl⟩
  | cons c cs ih =>
    cases args with
    | nil => exact h.elim
    | cons arg args =>
      obtain ⟨mid, n₁, n₂, s₁, s₂, hmid, rfl, rfl, hfirst, hrest⟩ := h
      have hsound := hc c List.mem_cons_self
      obtain ⟨m₁, hrun₁, hev₁, hdr₁, hnext₁⟩ := decodeOne_ok hsound hw hfirst index
      have hle := hrest.le
      have hrest₁ := hrest.evolves hev₁ hw fun n h1 h2 h3 => by omega
      obtain ⟨m₂, hrun₂, hev₂, hdr₂, hnext₂⟩ := ih (w := w.setMemory m₁)
        (fun c' hc' => hc c' (List.mem_cons_of_mem _ hc')) (hev₁.sound hw) hrest₁ (index + 1)
      have hlen := hfirst.length_registers hsound.packed
      refine ⟨m₂, ?_, ?_, ?_, hnext₂.trans hnext₁⟩
      · rw [decodeAll, ← hlen, List.take_left, List.drop_left, Step.bind_of_ok hrun₁,
          Step.bind_of_ok hrun₂]
        rfl
      · refine (hev₁.mono fun n _ hn => by omega).then hev₂ fun n _ hn => by omega
      · intro a ha
        rcases List.mem_append.mp ha with ha | ha
        · -- what was drained first is below what was drained later
          obtain ⟨hlt, hnext, hdrained⟩ := hdr₁ a ha
          refine ⟨by omega, hnext, ?_⟩
          have hkeep := hev₂.isDrained_eq (a := a) (by rw [memory_setMemory, hnext₁]; exact hnext)
            (by omega)
          rw [hkeep]
          exact hdrained
        · obtain ⟨hlt, hnext, hdrained⟩ := hdr₂ a ha
          rw [memory_setMemory, hnext₁] at hnext
          exact ⟨hlt, hnext, hdrained⟩

end World

end Dispatch
