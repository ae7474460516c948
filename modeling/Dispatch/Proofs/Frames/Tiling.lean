import Mathlib.Data.List.Forall2
import Dispatch.Proofs.Coherence.Check

/-!
# Fields tile the frame

The fields of a standard frame follow each other without gap or overlap, from behind the
header up to the end.  A field without bytes (an argument without components, or the
bindings of a method without generic parameters) starts where its successor starts.

## Main definitions

* `Extent`, `Frame.extents` — where the fields are.
* `Extent.Tile` — extents that follow each other, in words.
* `Frame.Tiled` — what that means for single bytes.
* `FrameField.Stores` — how an argument's field depends on how the argument is passed.

## Main results

* `Lowered.tile_frameLayout` — the fields of the standard frame follow each other.
* `Layout.standardFrame_tiled` — every standard frame that a target gives is tiled.
-/

namespace Dispatch

/-- Bytes of a frame that follow each other. -/
structure Extent where
  offset : Nat
  bytes : Nat
  deriving DecidableEq, Repr

namespace Extent

/-- The byte is one of the extent. -/
def Contains (e : Extent) (byte : Nat) : Prop := e.offset ≤ byte ∧ byte < e.offset + e.bytes

/-- A field of one word. -/
def word (offset : Nat) : Extent := ⟨offset, wordBytes⟩

/-- Extents of whole words that follow each other, from word `first` up to word `last`. -/
def Tile : Nat → List Extent → Nat → Prop
  | first, [], last => first = last
  | first, e :: rest, last =>
    ∃ words, e = ⟨8 * first, 8 * words⟩ ∧ Tile (first + words) rest last

variable {first mid last : Nat} {es es' : List Extent}

theorem Tile.append (h : Tile first es mid) (h' : Tile mid es' last) :
    Tile first (es ++ es') last := by
  induction es generalizing first with
  | nil =>
    cases h
    exact h'
  | cons e es ih =>
    obtain ⟨words, he, hrest⟩ := h
    exact ⟨words, he, ih hrest⟩

/-- Extents that follow each other are between the ends. -/
theorem Tile.bounds (h : Tile first es last) :
    ∀ e ∈ es, 8 * first ≤ e.offset ∧ e.offset + e.bytes ≤ 8 * last := by
  have hle : ∀ {first : Nat} {es : List Extent}, Tile first es last → first ≤ last := by
    intro first es h
    induction es generalizing first with
    | nil => exact Nat.le_of_eq h
    | cons e es ih =>
      obtain ⟨words, -, hrest⟩ := h
      have := ih hrest
      omega
  induction es generalizing first with
  | nil => simp
  | cons e es ih =>
    obtain ⟨words, rfl, hrest⟩ := h
    have := hle hrest
    intro e' he'
    rcases List.mem_cons.mp he' with rfl | he'
    · exact ⟨Nat.le_refl _, by simp only; omega⟩
    · have := ih hrest e' he'
      omega

theorem Tile.aligned (h : Tile first es last) :
    ∀ e ∈ es, wordBytes ∣ e.offset ∧ wordBytes ∣ e.bytes := by
  induction es generalizing first with
  | nil => simp
  | cons e es ih =>
    obtain ⟨words, rfl, hrest⟩ := h
    intro e' he'
    rcases List.mem_cons.mp he' with rfl | he'
    · exact ⟨Nat.dvd_mul_right 8 _, Nat.dvd_mul_right 8 _⟩
    · exact ih hrest e' he'

/-- Extents that follow each other have no byte in common. -/
theorem Tile.pairwise (h : Tile first es last) :
    es.Pairwise fun e e' => ∀ byte, ¬ (e.Contains byte ∧ e'.Contains byte) := by
  induction es generalizing first with
  | nil => exact List.Pairwise.nil
  | cons e es ih =>
    obtain ⟨words, rfl, hrest⟩ := h
    apply List.pairwise_cons.mpr
    constructor
    · intro e' he' byte hbyte
      obtain ⟨⟨-, hhere⟩, hthere, -⟩ := hbyte
      have := (hrest.bounds e' he').1
      simp only at hhere
      omega
    · exact ih hrest

/-- Extents that follow each other leave no byte out. -/
theorem Tile.cover (h : Tile first es last) :
    ∀ byte, 8 * first ≤ byte → byte < 8 * last → ∃ e ∈ es, e.Contains byte := by
  induction es generalizing first with
  | nil =>
    cases h
    intro byte hlow hhigh
    omega
  | cons e es ih =>
    obtain ⟨words, rfl, hrest⟩ := h
    intro byte hlow hhigh
    by_cases hin : byte < 8 * (first + words)
    · exact ⟨_, List.mem_cons_self, hlow, by simp only; omega⟩
    · obtain ⟨e', he', hbyte⟩ := ih hrest byte (by omega) hhigh
      exact ⟨e', List.mem_cons_of_mem _ he', hbyte⟩

end Extent

/-! ### The fields of a frame -/

/-- Where a value in a frame is. -/
def FrameField.extent (field : FrameField) : Extent := ⟨field.offset, field.bytes⟩

/-- The fields of a frame with their sizes, in the order in which they are laid out. -/
def Frame.extents (f : Frame) : List Extent :=
  f.errorSlot.toList.map Extent.word ++ f.indirectReturn.toList.map Extent.word
    ++ f.args.map FrameField.extent
    ++ [⟨f.bindings, f.bindingCount * wordBytes⟩, Extent.word f.localContext]
    ++ f.selfMetadata.toList.map Extent.word ++ f.selfWitnessTable.toList.map Extent.word
    ++ f.results.toList.map FrameField.extent

/-- The fields of a frame are made of words, and every byte behind the header is in
exactly one of them. -/
structure Frame.Tiled (f : Frame) : Prop where
  aligned : ∀ e ∈ f.extents, wordBytes ∣ e.offset ∧ wordBytes ∣ e.bytes
  apart : f.extents.Pairwise fun e e' => ∀ byte, ¬ (e.Contains byte ∧ e'.Contains byte)
  within : ∀ e ∈ f.extents, frameHeaderBytes ≤ e.offset ∧ e.offset + e.bytes ≤ f.size
  covered : ∀ byte, frameHeaderBytes ≤ byte → byte < f.size → ∃ e ∈ f.extents, e.Contains byte

/-- The field holds the components of a value that is passed directly, and an address
otherwise. -/
def FrameField.Stores (field : FrameField) (passing : Passing) : Prop :=
  ∀ components, (∃ offset, field = .inline offset components) ↔
    ∃ schema, passing = .direct schema ∧ schema.components = components

theorem FrameField.stores_ofPassing (start : Nat) (passing : Passing) :
    (FrameField.ofPassing start passing).Stores passing := by
  intro components
  cases passing <;> simp [FrameField.ofPassing]

theorem Extent.tile_wordIf (first : Nat) (present : Bool) :
    Tile first ((if present then some (8 * first) else none : Option Nat).toList.map word)
      (first + if present then 1 else 0) := by
  cases present with
  | false => rfl
  | true => exact ⟨1, rfl, rfl⟩

theorem Extent.tile_frameFields (carriers : List Carrier) (first : Nat) :
    Tile first ((frameFields first carriers).map FrameField.extent)
      (first + frameWords carriers) := by
  induction carriers generalizing first with
  | nil => simp [frameFields, frameWords, Tile]
  | cons c rest ih =>
    have hrest := ih (first + c.passing.frameWords)
    rw [frameWords_cons, ← Nat.add_assoc]
    refine ⟨c.passing.frameWords, ?_, hrest⟩
    cases c.passing with
    | direct schema =>
      simp [FrameField.ofPassing, FrameField.extent, FrameField.offset, FrameField.bytes,
        Passing.frameWords, wordBytes, Nat.mul_comm]
    | indirect schema => rfl
    | address => rfl

namespace Lowered

/-- The fields of the standard frame follow each other, from behind the header to the end
of the frame. -/
theorem tile_frameLayout (s : Lowered) :
    Extent.Tile s.errorAt s.frameLayout.extents s.frameEnd := by
  have herror := Extent.tile_wordIf s.errorAt s.throws
  have hindirect := Extent.tile_wordIf s.indirectAt s.hasIndirectReturn
  have hargs := Extent.tile_frameFields s.carriers s.paramsAt
  have hfixed : Extent.Tile s.bindingsAt
      [⟨8 * s.bindingsAt, s.bindingCount * wordBytes⟩, Extent.word (8 * s.receiverAt)]
      s.witnessAt :=
    ⟨s.bindingCount, by simp [wordBytes, Nat.mul_comm], 1, rfl, rfl⟩
  have hmetadata := Extent.tile_wordIf s.witnessAt s.witness
  have htable : Extent.Tile (s.witnessAt + if s.witness then 1 else 0)
      ((if s.witness then some (8 * (s.witnessAt + 1)) else none : Option Nat).toList.map
        Extent.word) s.resultsAt := by
    rw [resultsAt]
    cases s.witness with
    | false => rfl
    | true => exact ⟨1, rfl, rfl⟩
  have hresults : Extent.Tile s.resultsAt
      (s.frameLayout.results.toList.map FrameField.extent) s.frameEnd := by
    rw [frameEnd, frameLayout]
    cases hscalars : s.resultScalars with
    | nil => rfl
    | cons kind rest =>
      refine ⟨(kind :: rest).length, ?_, rfl⟩
      simp [FrameField.extent, FrameField.offset, FrameField.bytes, wordBytes, Nat.mul_comm]
  exact (((((herror.append hindirect).append hargs).append hfixed).append hmetadata).append
    htable).append hresults

theorem resultScalars_ne_nil (s : Lowered) : s.resultScalars ≠ [] ↔
    ∃ schema, s.result.passing = .direct schema ∧ schema.components ≠ [] := by
  unfold resultScalars
  split <;> simp_all

theorem tiled_frameLayout (s : Lowered) : s.frameLayout.Tiled where
  aligned := s.tile_frameLayout.aligned
  apart := s.tile_frameLayout.pairwise
  within := s.tile_frameLayout.bounds
  covered := s.tile_frameLayout.cover

end Lowered

/-! ### Frames that a target gives -/

namespace Layout

open Attempt

variable {l : Layout} {p : Pool} {m : Method} {f : Frame} {s : Lowered}

theorem carrier_of_passing {type : TypeId} {passing : Passing}
    (h : l.passing p type = .ok passing) : l.carrier p type = .ok ⟨type, passing⟩ := by
  rw [carrier, h]
  rfl

/-- Arguments are laid out only if it is known how each of them is passed. -/
theorem carriers_of_frameArgs {types : List TypeId} {here : Nat}
    (h : Step.Ends (l.frameArgs p types) here (fun _ _ => True) fun _ _ => False) :
    ∃ carriers, types.mapM (l.carrier p) = .ok carriers := by
  induction types generalizing here with
  | nil => exact ⟨[], rfl⟩
  | cons type rest ih =>
    rw [frameArgs, Step.ends_bind, Step.ends_liftM] at h
    cases hpassing : l.passing p type with
    | error fault => exact (h.2 fault hpassing).elim
    | ok passing =>
      have hfields := h.1 passing hpassing
      rw [Step.ends_bind] at hfields
      obtain ⟨field, next, -, hrest⟩ := hfields.exists_ok
      rw [Step.ends_bind] at hrest
      obtain ⟨carriers, hcarriers⟩ := ih (hrest.imp (fun _ _ _ => trivial) fun _ _ h => h)
      exact ⟨⟨type, passing⟩ :: carriers,
        mapM_cons_eq_ok.mpr ⟨_, _, carrier_of_passing hpassing, hcarriers, rfl⟩⟩

/-- A method that has a standard frame has everything a native signature needs. -/
theorem describes_of_standardFrame (h : l.standardFrame p m = .ok f) : ∃ s, l.Describes p m s := by
  have hrun : Step.Ends (l.layOut p m) frameHeaderBytes (fun _ _ => True) fun _ _ => False := by
    unfold standardFrame at h
    split at h
    · next _ _ hok => exact Step.ends_of_ok hok trivial
    · cases h
  rw [layOut, Step.ends_bind] at hrun
  obtain ⟨errorSlot, next, -, hrun⟩ := hrun.exists_ok
  rw [Step.ends_bind, Step.ends_liftM] at hrun
  cases hresult : l.passing p m.signature.result with
  | error fault => exact (hrun.2 fault hresult).elim
  | ok result =>
    have hrun := hrun.1 result hresult
    rw [Step.ends_bind] at hrun
    obtain ⟨indirectReturn, next, -, hrun⟩ := hrun.exists_ok
    rw [Step.ends_bind] at hrun
    obtain ⟨carriers, hcarriers⟩ := carriers_of_frameArgs
      (hrun.imp (fun _ _ _ => trivial) fun _ _ h => h)
    obtain ⟨args, next, -, hrun⟩ := hrun.exists_ok
    rw [Step.ends_bind, Step.ends_liftM] at hrun
    cases hcount : m.signature.generics.bindingCount with
    | error fault => exact (hrun.2 fault hcount).elim
    | ok count =>
      exact ⟨⟨m.convention, m.isWitness, m.signature.throws, carriers, ⟨_, result⟩, count, none⟩,
        rfl, rfl, rfl, hcarriers, carrier_of_passing hresult, hcount⟩

/-- There is a field for each parameter, in order. -/
theorem stores_frameFields {types : List TypeId} {carriers : List Carrier}
    (h : types.mapM (l.carrier p) = .ok carriers) (start : Nat) :
    List.Forall₂ (fun type field => ∃ passing, l.passing p type = .ok passing ∧
      FrameField.Stores field passing) types (frameFields start carriers) := by
  induction types generalizing carriers start with
  | nil =>
    cases h
    exact List.Forall₂.nil
  | cons type rest ih =>
    obtain ⟨c, cs, hone, hrest, rfl⟩ := mapM_cons_eq_ok.mp h
    obtain ⟨passing, hpassing, hone⟩ := bind_eq_ok.mp hone
    cases hone
    exact List.Forall₂.cons ⟨passing, hpassing, FrameField.stores_ofPassing start passing⟩
      (ih hrest _)

/-- **The fields of a standard frame tile it.**  They are made of whole words, and every
byte behind the header is in exactly one of them.  Each parameter has a field, in order,
that holds components exactly if the parameter is passed directly; the address of the
result and the results themselves are there exactly when the result is passed that way. -/
theorem standardFrame_tiled (h : l.standardFrame p m = .ok f) :
    f.Tiled ∧
      List.Forall₂ (fun type field => ∃ passing, l.passing p type = .ok passing ∧
        FrameField.Stores field passing) m.signature.params f.args ∧
      ∃ result, l.passing p m.signature.result = .ok result ∧
        (f.indirectReturn.isSome = true ↔ result.byAddress = true) ∧
        (f.results.isSome = true ↔
          ∃ schema, result = .direct schema ∧ schema.components ≠ []) := by
  obtain ⟨s, hs⟩ := describes_of_standardFrame h
  have hframe : f = s.frameLayout := by
    rcases hs.standardFrame with ⟨hok, -⟩ | ⟨⟨fault, herror⟩, -⟩
    · rw [h] at hok
      exact Except.ok.inj hok
    · rw [h] at herror
      cases herror
  subst hframe
  obtain ⟨result, hresult, hcarrier⟩ := bind_eq_ok.mp hs.result
  have hpassing : s.result.passing = result := by
    rw [← Except.ok.inj hcarrier]
  refine ⟨s.tiled_frameLayout, stores_frameFields hs.carriers _, result, hresult, ?_, ?_⟩
  · rw [← hpassing]
    by_cases hby : s.hasIndirectReturn <;> simp_all [Lowered.frameLayout, Lowered.hasIndirectReturn]
  · rw [← hpassing, ← s.resultScalars_ne_nil]
    by_cases hnil : s.resultScalars = [] <;> simp [Lowered.frameLayout, hnil]

/-- The frame of a method that may be waited for. -/
theorem outline_frame_tiled : ∃ f, Shapes.unit.layout.standardFrame Shapes.unit.pool Shapes.outline
    = .ok f ∧ f.Tiled ∧ f.size = 56 := by
  have hf : Shapes.unit.layout.standardFrame Shapes.unit.pool Shapes.outline
      = .ok (Shapes.signature Shapes.outline).frameLayout := by decide +kernel
  exact ⟨_, hf, (standardFrame_tiled hf).1, by decide +kernel⟩

end Layout

end Dispatch
