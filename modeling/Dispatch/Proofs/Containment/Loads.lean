import Dispatch.Proofs.Containment
import Dispatch.Proofs.Forgery

/-!
# Loads from tables

The address of a table entry is the one sum that running code computes without having read
anything at that place before: the receiver of a method or its witness table may be any
word.  If the sum does not fit a word the load stops the machine, and it is the only way in
which a load can do so.

## Main definitions

* `Word.Past` — the sum of two words does not fit a word.
* `Target.Overruns` — the address of an entry does not fit a word.

## Main results

* `World.ends_load` — how the load of an implementation ends.
* `Target.Overruns.load` — a load whose address does not fit stops the machine.
-/

namespace Dispatch

open Attempt

/-! ### Sums that do not fit -/

/-- The sum of two words does not fit a word. -/
def Word.Past (a b : Word) : Prop := UInt64.size ≤ a.toNat + b.toNat

instance (a b : Word) : Decidable (a.Past b) := inferInstanceAs (Decidable (_ ≤ _))

theorem addWord_of_past {a b : Word} (h : a.Past b) :
    addWord a b = .error (.trap (.overflow .add)) := by
  rw [addWord, Word.add?, if_neg (Nat.not_lt.mpr h)]
  rfl

theorem toNat_of_addWord {a b c : Word} (h : addWord a b = .ok c) :
    c.toNat = a.toNat + b.toNat := by
  unfold addWord at h
  cases hsum : Word.add? a b with
  | none =>
    rw [hsum] at h
    cases h
  | some d =>
    rw [hsum] at h
    cases h
    exact (Word.add?_eq_some_iff.mp hsum).symm

theorem addWord_cases (a b : Word) :
    (∃ c, addWord a b = .ok c) ∨ addWord a b = .error (.trap (.overflow .add)) ∧ a.Past b := by
  by_cases h : a.Past b
  · exact .inr ⟨addWord_of_past h, h⟩
  · rw [addWord, Word.add?, if_pos (Nat.lt_of_not_le h)]
    exact .inl ⟨_, rfl⟩

namespace World

/-- In the table in `metadata`, the address of the entry does not fit a word. -/
inductive SlotOverruns (w : World) (metadata : Word) : Slot → Prop
  | fixed {word : Nat} (h : metadata.Past (UInt64.ofNat (word * wordBytes))) :
    SlotOverruns w metadata (.fixed word)
  | resilient {symbol : String} {index : Nat} {bounds start : Word}
    (hbounds : w.link? symbol = some bounds) (hstart : w.memory.read bounds = .ok start)
    (hfilled : tableHeaderWords * wordBytes ≤ start.toNat)
    (h : UInt64.size ≤ metadata.toNat + start.toNat
      + (UInt64.ofNat (index * wordBytes)).toNat) :
    SlotOverruns w metadata (.resilient symbol index)

end World

/-- The address of the entry that a thunk loads does not fit a word. -/
inductive Target.Overruns (p : Pool) (m : Method) (receiver : Word)
    (witness : Option (Word × Word)) (w : World) : Target → Prop
  | witness {index : Nat} {metadata table : Word} (hwitness : witness = some (metadata, table))
    (h : table.Past (UInt64.ofNat (index * wordBytes))) : Overruns p m receiver witness w
      (.witness index)
  | virtual {slot : Slot} {signing : Option Signing} {metadata : Word}
    (hmetadata : Target.metadata p m receiver w = .ok metadata w)
    (h : w.SlotOverruns metadata slot) : Overruns p m receiver witness w (.virtual slot signing)

namespace World

variable {u : Module} {refs : List Method} {w w' : World} {m : Method} {p : Pool}
  {target : Target} {slot : Slot} {receiver metadata : Word} {witness : Option (Word × Word)}

/-! ### How a load ends -/

theorem careful_addressOf (symbol : String) : Careful u refs (addressOf symbol) := by
  intro w hw
  apply Step.Ends.imp (hw.grounded.ends_addressOf symbol)
  · intro _ _ h
    exact hw.spares h.1
  · intro _ _ h
    exact .inl h.2

/-- The address of an entry, once it is known where the entries start. -/
theorem resilientSlot_error {bounds start : Word} {index : Nat} {f : Fault}
    (h : resilientSlot metadata bounds start index = .error f) :
    f.Caught ∨ f = .trap (.overflow .add) ∧ tableHeaderWords * wordBytes ≤ start.toNat ∧
      UInt64.size ≤ metadata.toNat + start.toNat + (UInt64.ofNat (index * wordBytes)).toNat := by
  unfold resilientSlot at h
  split at h
  · cases h
    exact .inl ⟨_, rfl⟩
  · next hfilled =>
    have hfilled := Nat.le_of_not_lt hfilled
    -- there are two sums, and if the first does not fit then neither does the whole
    rcases addWord_cases metadata start with ⟨own, hown⟩ | ⟨hown, hpast⟩
    · rw [hown, ok_bind] at h
      rcases addWord_cases own (UInt64.ofNat (index * wordBytes)) with ⟨a, ha⟩ | ⟨ha, hpast⟩
      · rw [ha] at h
        cases h
      · rw [ha] at h
        cases h
        rw [Word.Past, toNat_of_addWord hown] at hpast
        exact .inr ⟨rfl, hfilled, hpast⟩
    · rw [hown] at h
      cases h
      exact .inr ⟨rfl, hfilled, Nat.le_trans hpast (Nat.le_add_right _ _)⟩

/-- Finding the address of an entry stops the machine only if the address does not fit. -/
theorem ends_tableSlot (hw : Settled u refs w) (metadata : Word) (slot : Slot) :
    Step.Ends (tableSlot metadata slot) w (fun _ w' => Settled u refs w' ∧ Prepares w w')
      fun f w' => Exhausted w' ∨ f.Caught ∨ f = .trap (.overflow .add) ∧ Prepares w w' ∧
        SlotOverruns w' metadata slot := by
  cases slot with
  | fixed word =>
    rw [tableSlot]
    rcases addWord_cases metadata (UInt64.ofNat (word * wordBytes)) with ⟨a, ha⟩ | ⟨ha, hpast⟩
    · rw [ha]
      exact ⟨hw, .refl w⟩
    · rw [ha]
      exact .inr (.inr ⟨rfl, .refl w, .fixed hpast⟩)
  | resilient symbol index =>
    rw [tableSlot_resilient, Step.ends_bind]
    apply Step.Ends.imp (hw.grounded.ends_addressOf symbol)
    case hE => exact fun _ _ h => .inl h.2
    intro bounds w₁ h₁
    obtain ⟨hs, hprepares, hbounds⟩ := h₁
    rw [Step.ends_bind, read, ends_inMemory]
    constructor
    · intro start hstart
      rw [Step.ends_liftM]
      constructor
      · intro _ _
        exact ⟨hw.spares hs, hprepares⟩
      · intro f hf
        rcases resilientSlot_error hf with hcaught | ⟨rfl, hfilled, hlarge⟩
        · exact .inr (.inl hcaught)
        · exact .inr (.inr ⟨rfl, hprepares, .resilient hbounds hstart hfilled hlarge⟩)
    · intro f hf
      exact .inr (.inl (Memory.read_caught hf))

theorem Prepares.evolves (h : Prepares w w') : w.memory.Evolves (fun _ => False) w'.memory := by
  obtain ⟨v, hv⟩ := h
  exact hv.evolves

/-- What a receiver leads to, if that can be read. -/
theorem ends_metadata (hkind : ∃ b, Target.receiverIsMetadata p m = .ok b) :
    Step.Ends (Target.metadata p m receiver) w
      (fun metadata w' => w' = w ∧ Target.metadata p m receiver w = .ok metadata w)
      fun f _ => f.Caught := by
  obtain ⟨isMetadata, hkind⟩ := hkind
  unfold Target.metadata
  rw [hkind]
  cases isMetadata with
  | true => exact ⟨rfl, rfl⟩
  | false =>
    have hread : Step.Ends (read receiver) w
        (fun metadata w' => w' = w ∧ read receiver w = .ok metadata w)
        fun f _ => f.Caught := by
      rw [read, ends_inMemory]
      constructor
      · intro metadata h
        exact ⟨rfl, read_ok h⟩
      · intro f hf
        exact Memory.read_caught hf
    exact hread

theorem checked_caught {signing : Option Signing} {word : Word} {f : Fault}
    (h : Target.checked signing word = .error f) : f.Caught := by
  unfold Target.checked at h
  split at h
  · next s =>
    unfold Signing.check at h
    split at h
    · cases h
    · cases h
      exact ⟨_, rfl⟩
  · cases h

/-- The load of an implementation stops the machine only if the address of the entry does
not fit a word. -/
theorem ends_load (hw : Settled u refs w) (hkind : ∃ b, Target.receiverIsMetadata p m = .ok b)
    (hwitness : ∀ index, target = .witness index → witness.isSome) :
    Step.Ends (target.load p m receiver witness) w
      (fun _ w' => Settled u refs w' ∧ Prepares w w')
      fun f w' => Exhausted w' ∨ f.Caught ∨ f = .trap (.overflow .add) ∧ Prepares w w' ∧
        target.Overruns p m receiver witness w' := by
  have hsound := hw.grounded.linked.sound
  cases target with
  | witness index =>
    obtain ⟨⟨metadata, table⟩, rfl⟩ := Option.isSome_iff_exists.mp (hwitness index rfl)
    simp only [Target.load]
    rcases addWord_cases table (UInt64.ofNat (index * wordBytes)) with ⟨a, ha⟩ | ⟨ha, hpast⟩
    · rw [ha, Step.ends_bind, Step.ends_liftM_ok, read, ends_inMemory]
      constructor
      · intro _ _
        exact ⟨hw, .refl w⟩
      · intro f hf
        exact .inr (.inl (Memory.read_caught hf))
    · rw [ha]
      exact .inr (.inr ⟨rfl, .refl w, .witness rfl hpast⟩)
  | virtual slot signing =>
    rw [Target.load, Step.ends_bind]
    apply Step.Ends.imp (ends_metadata hkind)
    case hE => exact fun _ _ h => .inr (.inl h)
    rintro metadata _ ⟨rfl, hmetadata⟩
    rw [Step.ends_bind]
    apply Step.Ends.imp (ends_tableSlot hw metadata slot)
    case hE =>
      -- the bounds may have been given an address, which leaves the metadata as it was
      intro f w' h
      rcases h with hfull | hcaught | ⟨rfl, hprepares, hoverruns⟩
      · exact .inl hfull
      · exact .inr (.inl hcaught)
      · have hthere := metadata_keeps hmetadata hsound hprepares.evolves
        exact .inr (.inr ⟨rfl, hprepares, .virtual hthere hoverruns⟩)
    intro address w₁ h₁
    rw [Step.ends_bind, read, ends_inMemory]
    constructor
    · intro word _
      rw [Step.ends_liftM]
      constructor
      · intro _ _
        exact h₁
      · intro f hf
        exact .inr (.inl (checked_caught hf))
    · intro f hf
      exact .inr (.inl (Memory.read_caught hf))

end World

/-! ### Loads that cannot be made -/

namespace Target.Overruns

open World

variable {w w' : World} {m : Method} {p : Pool} {target : Target} {receiver : Word}
  {witness : Option (Word × Word)}

/-- A load whose address does not fit a word stops the machine. -/
theorem load (h : target.Overruns p m receiver witness w) :
    target.load p m receiver witness w = .error (.trap (.overflow .add)) w := by
  cases h with
  | witness hwitness h =>
    rw [hwitness]
    simp only [Target.load]
    rw [addWord_of_past h]
    rfl
  | @virtual slot signing metadata hmetadata h =>
    have hslot : tableSlot metadata slot w = .error (.trap (.overflow .add)) w := by
      cases h with
      | fixed h =>
        rw [tableSlot, addWord_of_past h]
        rfl
      | @resilient symbol index bounds start hbounds hstart hfilled h =>
        rw [tableSlot_resilient, Step.bind_of_ok (addressOf_ok hbounds),
          Step.bind_of_ok (read_ok hstart), resilientSlot, if_neg (Nat.not_lt.mpr hfilled)]
        rcases addWord_cases metadata start with ⟨own, hown⟩ | ⟨hown, -⟩
        · have hpast : own.Past (UInt64.ofNat (index * wordBytes)) := by
            rwa [Word.Past, toNat_of_addWord hown]
          rw [hown, ok_bind, addWord_of_past hpast]
          rfl
        · rw [hown]
          rfl
    rw [Target.load, Step.bind_of_ok hmetadata, Step.bind_of_error hslot]

/-- It stays so as long as nobody writes to what was there. -/
theorem keeps (h : target.Overruns p m receiver witness w) (hs : w.memory.Sound)
    (hlinks : ∀ symbol a, w.link? symbol = some a → w'.link? symbol = some a)
    (hev : w.memory.Evolves (fun _ => False) w'.memory) :
    target.Overruns p m receiver witness w' := by
  cases h with
  | witness hwitness h => exact .witness hwitness h
  | virtual hmetadata h =>
    apply Overruns.virtual (metadata_keeps hmetadata hs hev)
    cases h with
    | fixed h => exact .fixed h
    | resilient hbounds hstart hfilled h =>
      exact .resilient (hlinks _ _ hbounds) (hev.read_ok hs hstart id) hfilled h

end Target.Overruns

end Dispatch
