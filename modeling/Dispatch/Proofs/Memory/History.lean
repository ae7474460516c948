import Mathlib.Data.List.Nodup
import Dispatch.Proofs.Memory.Requests

/-!
# Memory and its history

What memory says depends on nothing but what has happened to it: which regions were
allocated, and what was the last event at each place.  A history lists these events, and
says by itself which requests are served and with which words.  Memory does not keep the
list, but at every point of a run it answers as the list does.

## Main definitions

* `Memory.History` — what has happened, the latest event first; `mapped`, `taken` and
  `value` say what that means for a place, and `serve` answers a request.
* `Memory.Tells` — memory is as a history tells.
* `Memory.MovesWords` — what memory promises when its history is known.

## Main results

* `Memory.Tells.ends_run`, `Memory.Tells.follows` — one access, and one request.
* `Memory.Tells.after` — any number of requests.
* `Memory.moves_words` — the promise holds at every point of a run.
-/

namespace Dispatch

/-- The address after the last one of a region. -/
def Region.stop (r : Region) : Nat := r.base.toNat + max r.bytes 1

namespace Memory

open Word

/-! ### Histories -/

/-- Something that has happened to memory. -/
inductive Event where
  | allocated (region : Region)
  | wrote (place : Nat) (value : Word)
  | took (place : Nat)
  deriving DecidableEq, Repr

/-- What has happened to memory, the latest event first. -/
abbrev History := List Event

namespace History

/-- The regions that were allocated, the latest first. -/
def regions : History → List Region
  | [] => []
  | .allocated r :: h => r :: regions h
  | _ :: h => regions h

/-- Where the next region goes. -/
def top : History → Nat
  | [] => 0x1000
  | .allocated r :: _ => r.base.toNat + Region.extent r.bytes + Region.gapBytes
  | _ :: h => top h

/-- Is the place inside a region? -/
def mapped (h : History) (place : Nat) : Bool :=
  h.regions.any fun r => decide (r.base.toNat ≤ place ∧ place < r.stop)

/-- Was the word taken since it was last written, or ever if it never was? -/
def taken : History → Nat → Bool
  | [], _ => false
  | .took p :: h, place => decide (p = place) || taken h place
  | .wrote p _ :: h, place => decide (p ≠ place) && taken h place
  | .allocated _ :: h, place => taken h place

/-- The value that was last written, or zero if none was. -/
def value : History → Nat → Word
  | [], _ => 0
  | .took _ :: h, place => value h place
  | .wrote p v :: h, place => if p = place then v else value h place
  | .allocated _ :: h, place => value h place

/-- What a word holds: nothing, if it was taken. -/
def content (h : History) (place : Nat) : Option Word :=
  if h.taken place then none else some (h.value place)

/-- A word can be written when it is mapped, and read or taken when it moreover was not
taken. -/
def admits (h : History) (place : Nat) : Access → Bool
  | .write _ => h.mapped place
  | .read | .take => h.mapped place && !h.taken place

/-- The words that come out of an access. -/
def words (h : History) (place : Nat) : Access → List Word
  | .write _ => []
  | .read | .take => [h.value place]

/-- What has happened after an access.  To be read leaves no trace. -/
def note (h : History) (place : Nat) : Access → History
  | .read => h
  | .write v => .wrote place v :: h
  | .take => .took place :: h

/-- Words that come out before others do. -/
def prepend (words : List Word) (later : Option (List Word) × History) :
    Option (List Word) × History :=
  (later.1.map (words ++ ·), later.2)

/-- Accesses, one after the other up to the first that is not admitted: all their words,
if there is none of these, and what has happened then. -/
def perform (h : History) : List (Nat × Access) → Option (List Word) × History
  | [] => (some [], h)
  | (place, x) :: rest =>
    if h.admits place x then prepend (h.words place x) ((h.note place x).perform rest)
    else (none, h)

/-- The answer to a request, and what has happened then. -/
def serve (h : History) : Request → Option (List Word) × History
  | .alloc bytes =>
    if h.top + Region.extent bytes + Region.gapBytes < 2 ^ 64 then
      (some [UInt64.ofNat h.top], .allocated ⟨UInt64.ofNat h.top, bytes⟩ :: h)
    else (none, h)
  | q => h.perform q.accesses

/-- What has happened after more requests. -/
def after (h : History) (requests : List Request) : History :=
  requests.foldl (fun h q => (h.serve q).2) h

variable {h : History} {x : Access} {xs : List (Nat × Access)} {places : List Nat}
  {place p : Nat}

theorem serve_eq_perform {q : Request} (hq : ∀ bytes, q ≠ .alloc bytes) :
    h.serve q = h.perform q.accesses := by
  cases q with
  | alloc bytes => exact absurd rfl (hq bytes)
  | _ => rfl

@[simp] theorem mapped_note : (h.note p x).mapped place = h.mapped place := by
  cases x <;> rfl

theorem admits_take : h.admits place .take = true ↔
    h.mapped place = true ∧ h.taken place = false := by
  simp [admits]

theorem mapped_of_admits (hx : h.admits place x = true) : h.mapped place = true := by
  cases x with
  | write v => exact hx
  | read => exact (admits_take.mp hx).1
  | take => exact (admits_take.mp hx).1

/-- There is no way past a place outside of all regions. -/
theorem perform_eq_none (hx : (place, x) ∈ xs) (hplace : h.mapped place = false) :
    (h.perform xs).1 = none := by
  induction xs generalizing h with
  | nil => cases hx
  | cons y rest ih =>
    rw [perform]
    split
    · next hy =>
      rcases List.mem_cons.mp hx with rfl | hx
      · rw [mapped_of_admits hy] at hplace
        cases hplace
      · rw [prepend, ih hx (by rw [mapped_note, hplace]), Option.map_none]
    · rfl

theorem content_eq_some {v : Word} :
    h.content place = some v ↔ h.taken place = false ∧ v = h.value place := by
  rw [content]
  cases h.taken place <;> simp [eq_comm]

theorem content_eq_none : h.content place = none ↔ h.taken place = true := by
  rw [content]
  cases h.taken place <;> simp

theorem content_wrote (h : History) (p place : Nat) (v : Word) :
    History.content (.wrote p v :: h) place = if p = place then some v else h.content place := by
  by_cases heq : p = place <;> simp [content, taken, value, heq]

theorem content_took (h : History) (p place : Nat) :
    History.content (.took p :: h) place = if p = place then none else h.content place := by
  by_cases heq : p = place <;> simp [content, taken, value, heq]

/-- Words that can be taken, each of them once: their values come out. -/
theorem perform_takes (hnodup : places.Nodup) (hall : ∀ p ∈ places, h.admits p .take = true) :
    h.perform (places.map (·, .take)) =
      (some (places.map h.value), (places.map Event.took).reverse ++ h) := by
  induction places generalizing h with
  | nil => rfl
  | cons p rest ih =>
    rw [List.nodup_cons] at hnodup
    have hrest : ∀ p' ∈ rest, History.admits (.took p :: h) p' .take = true := by
      intro p' hp'
      obtain ⟨hmapped, htaken⟩ := admits_take.mp (hall p' (List.mem_cons_of_mem _ hp'))
      have hne : p ≠ p' := fun heq => hnodup.1 (heq ▸ hp')
      exact admits_take.mpr ⟨hmapped, by simp [taken, hne, htaken]⟩
    rw [List.map_cons, perform, if_pos (hall p List.mem_cons_self), note, ih hnodup.2 hrest]
    simp [prepend, words, value]

/-- Only words that can be taken are. -/
theorem admits_of_perform_takes {answer : List Word}
    (hanswer : (h.perform (places.map (·, .take))).1 = some answer) :
    ∀ p ∈ places, h.admits p .take = true := by
  induction places generalizing h answer with
  | nil => exact fun p hp => absurd hp List.not_mem_nil
  | cons p rest ih =>
    rw [List.map_cons, perform] at hanswer
    split at hanswer
    · next hp =>
      obtain ⟨others, hothers, -⟩ := Option.map_eq_some_iff.mp hanswer
      intro p' hp'
      rcases List.mem_cons.mp hp' with rfl | hp'
      · exact hp
      · obtain ⟨hmapped, htaken⟩ := admits_take.mp (ih hothers p' hp')
        rw [mapped_note] at hmapped
        simp only [note, taken, Bool.or_eq_false_iff] at htaken
        exact admits_take.mpr ⟨hmapped, htaken.2⟩
    · cases hanswer

theorem taken_takes : History.taken ((places.map Event.took).reverse ++ h) place = true ↔
    place ∈ places ∨ h.taken place = true := by
  rw [← List.map_reverse, ← List.mem_reverse]
  induction places.reverse with
  | nil => simp
  | cons p rest ih =>
    rw [List.map_cons, List.cons_append, taken, Bool.or_eq_true, ih, decide_eq_true_eq,
      List.mem_cons, or_assoc, eq_comm]

end History

/-! ### Memory as its history tells -/

/-- Memory is as a history tells. -/
structure Tells (h : History) (m : Memory) : Prop where
  sound : m.Sound
  regions : m.regions = h.regions
  next : m.next.toNat = h.top
  aligned : wordBytes ∣ m.next.toNat ∧ ∀ r ∈ m.regions, wordBytes ∣ r.base.toNat
  /-- A word that nothing has happened to is zero. -/
  content : ∀ a : Word, (m.cell? a).getD (some 0) = h.content a.toNat

variable {m m' : Memory} {h : History} {a b base : Word} {v : Word} {index count bytes : Nat}

theorem Tells.start : Tells [] {} where
  sound := sound_empty
  regions := rfl
  next := rfl
  aligned := ⟨by decide, by simp⟩
  content _ := rfl

theorem Tells.isMapped (ht : Tells h m) (a : Word) : m.isMapped a = h.mapped a.toNat := by
  rw [Bool.eq_iff_iff, ht.sound.isMapped_iff, ht.regions, History.mapped, List.any_eq_true]
  simp only [decide_eq_true_eq, holds_iff]
  rfl

theorem Tells.isDrained (ht : Tells h m) (a : Word) : m.isDrained a = h.taken a.toNat := by
  rw [Bool.eq_iff_iff, isDrained_iff, ht.content, History.content_eq_none]

theorem Tells.read_iff (ht : Tells h m) :
    m.read a = .ok v ↔
      h.mapped a.toNat = true ∧ h.taken a.toNat = false ∧ v = h.value a.toNat := by
  rw [read_eq_ok_iff, ht.isMapped, ht.content, History.content_eq_some]

/-- No word above all regions was ever taken. -/
theorem Tells.untouched (ht : Tells h m) (ha : m.next.toNat ≤ a.toNat) :
    h.taken a.toNat = false ∧ h.value a.toNat = 0 := by
  have hcontent := ht.content a
  rw [ht.sound.cell?_eq_none ha, Option.getD_none, eq_comm, History.content_eq_some] at hcontent
  exact ⟨hcontent.1, hcontent.2.symm⟩

/-! ### Events -/

theorem Tells.wrote (ht : Tells h m) (ha : h.mapped a.toNat = true) (v : Word) :
    Tells (.wrote a.toNat v :: h) (m.put a (some v)) where
  sound := ht.sound.put (by rw [ht.isMapped, ha]) _
  regions := ht.regions
  next := ht.next
  aligned := ht.aligned
  content b := by
    simp only [cell?_put, History.content_wrote, UInt64.toNat_inj, ← ht.content]
    split <;> rfl

theorem Tells.took (ht : Tells h m) (ha : h.mapped a.toNat = true) :
    Tells (.took a.toNat :: h) (m.put a none) where
  sound := ht.sound.put (by rw [ht.isMapped, ha]) _
  regions := ht.regions
  next := ht.next
  aligned := ht.aligned
  content b := by
    simp only [cell?_put, History.content_took, UInt64.toNat_inj, ← ht.content]
    split <;> rfl

theorem dvd_extent (bytes : Nat) : wordBytes ∣ Region.extent bytes := Nat.dvd_mul_left _ _

/-- The next region starts where the last one and its gap end. -/
theorem Tells.allocated (ht : Tells h m)
    (hroom : h.top + Region.extent bytes + Region.gapBytes < 2 ^ 64) :
    Tells (.allocated ⟨UInt64.ofNat h.top, bytes⟩ :: h) (m.allocated bytes) := by
  rw [← ht.next] at hroom ⊢
  rw [UInt64.ofNat_toNat]
  have hnext := next_allocated hroom
  have hevolves : m.Evolves (fun _ => False) (m.allocated bytes) := evolves_allocated hroom
  refine ⟨hevolves.sound ht.sound, ?_, hnext, ⟨?_, ?_⟩, ht.content⟩
  · rw [History.regions, ← ht.regions]
    rfl
  · rw [hnext]
    exact Nat.dvd_add (Nat.dvd_add ht.aligned.1 (dvd_extent bytes)) (by decide)
  · intro r hr
    rcases List.mem_cons.mp hr with rfl | hr
    · exact ht.aligned.1
    · exact ht.aligned.2 r hr

/-! ### Requests are answered from the history -/

/-- A step says what the history says, and leaves memory as the history then tells. -/
def Follows (x : Step Memory (List Word)) (m : Memory) (y : Option (List Word) × History) :
    Prop :=
  Step.Ends x m (fun words m' => y.1 = some words ∧ Tells y.2 m')
    fun _ m' => y.1 = none ∧ Tells y.2 m'

theorem Tells.lt_of_mapped {place : Nat} (ht : Tells h m) (hplace : h.mapped place = true) :
    place < 2 ^ 64 := by
  rw [History.mapped, List.any_eq_true, ← ht.regions] at hplace
  obtain ⟨r, hr, hin⟩ := hplace
  have hhigh := ht.sound.high r hr
  have hextent := le_extent r.bytes
  have hlt := m.next.toNat_lt
  rw [decide_eq_true_eq, Region.stop] at hin
  omega

/-- One access. -/
theorem Tells.ends_run (ht : Tells h m) (x : Access) (a : Word) :
    Step.Ends (x.run a) m
      (fun words m' => h.admits a.toNat x = true ∧ words = h.words a.toNat x ∧
        Tells (h.note a.toNat x) m')
      fun _ m' => h.admits a.toNat x = false ∧ m' = m := by
  have hread : ∀ v, m.read a = .ok v → h.admits a.toNat .read = true ∧ v = h.value a.toNat := by
    intro v hv
    obtain ⟨hmapped, htaken, hvalue⟩ := ht.read_iff.mp hv
    exact ⟨History.admits_take.mpr ⟨hmapped, htaken⟩, hvalue⟩
  have hrefused : ∀ f, m.read a = .error f → h.admits a.toNat .read = false := by
    intro f hf
    rw [Bool.eq_false_iff]
    intro hadmits
    obtain ⟨hmapped, htaken⟩ := History.admits_take.mp hadmits
    rw [ht.read_iff.mpr ⟨hmapped, htaken, rfl⟩] at hf
    cases hf
  cases x with
  | read =>
    rw [Access.run, Step.ends_bind, Step.ends_get, Step.ends_bind, Step.ends_liftM]
    refine ⟨fun v hv => ?_, fun f hf => ⟨hrefused f hf, rfl⟩⟩
    obtain ⟨hadmits, rfl⟩ := hread v hv
    exact ⟨hadmits, rfl, ht⟩
  | write v =>
    rw [Access.run, Step.ends_bind]
    cases hmapped : m.isMapped a with
    | true =>
      have ha : h.mapped a.toNat = true := by rw [← ht.isMapped, hmapped]
      exact Step.ends_of_ok (write_ok hmapped v) ⟨ha, rfl, ht.wrote ha v⟩
    | false =>
      have ha : h.mapped a.toNat = false := by rw [← ht.isMapped, hmapped]
      exact Step.ends_of_error (write_error hmapped v) ⟨ha, rfl⟩
  | take =>
    rw [Access.run, Step.ends_bind]
    cases hv : m.read a with
    | ok v =>
      obtain ⟨hadmits, rfl⟩ := hread v hv
      exact Step.ends_of_ok (take_ok hv)
        ⟨hadmits, rfl, ht.took (History.mapped_of_admits hadmits)⟩
    | error f => exact Step.ends_of_error (take_error hv) ⟨hrefused f hv, rfl⟩

/-- Consecutive accesses. -/
theorem Tells.follows_visit {xs : List Access} (ht : Tells h m) (hreach : InReach base index) :
    Follows (visit base index xs) m (h.perform (along base.toNat index xs)) := by
  induction xs generalizing index m h with
  | nil => exact ⟨rfl, ht⟩
  | cons x rest ih =>
    rw [visit, along, History.perform, Follows, Step.ends_bind, Step.ends_liftM]
    refine ⟨fun a ha => ?_, fun f hf => ?_⟩
    · obtain ⟨hplace, hnext⟩ := hreach.next ha
      rw [← hplace, Step.ends_bind]
      refine (ht.ends_run x a).imp ?_ ?_
      · rintro words m₁ ⟨hadmits, rfl, ht₁⟩
        rw [if_pos hadmits, Step.ends_bind]
        refine (ih ht₁ hnext).imp ?_ ?_
        · rintro others m₂ ⟨hothers, ht₂⟩
          exact ⟨by rw [History.prepend, hothers]; rfl, ht₂⟩
        · rintro f m₂ ⟨hnone, ht₂⟩
          exact ⟨by rw [History.prepend, hnone]; rfl, ht₂⟩
      · rintro f m' ⟨hadmits, rfl⟩
        rw [if_neg (by rw [hadmits]; exact Bool.false_ne_true)]
        exact ⟨rfl, ht⟩
    · -- there is no such address, so the place is not mapped
      rw [if_neg]
      · exact ⟨rfl, ht⟩
      · intro hadmits
        have hlt := ht.lt_of_mapped (History.mapped_of_admits hadmits)
        rw [wordAddress_eq hlt] at hf
        cases hf

/-- One request. -/
theorem Tells.follows (ht : Tells h m) (q : Request) : Follows q.serve m (h.serve q) := by
  by_cases halloc : ∃ bytes, q = .alloc bytes
  · obtain ⟨bytes, rfl⟩ := halloc
    rw [Request.serve, History.serve, Follows, Step.ends_bind]
    by_cases hroom : h.top + Region.extent bytes + Region.gapBytes < 2 ^ 64
    · rw [if_pos hroom]
      refine Step.ends_of_ok (alloc_ok (by rw [ht.next]; exact hroom)) ⟨?_, ht.allocated hroom⟩
      rw [← ht.next, UInt64.ofNat_toNat]
    · rw [if_neg hroom]
      exact Step.ends_of_error (alloc_error (by rw [ht.next]; exact hroom)) ⟨rfl, ht⟩
  · have hq : ∀ bytes, q ≠ .alloc bytes := fun bytes heq => halloc ⟨bytes, heq⟩
    obtain ⟨base, xs, haccesses, hserve⟩ := q.serve_eq_visit hq
    rw [hserve, History.serve_eq_perform hq, haccesses]
    exact ht.follows_visit (inReach_zero base)

/-- Any number of requests. -/
theorem Tells.after (ht : Tells h m) (requests : List Request) :
    Tells (h.after requests) (m.after requests) := by
  induction requests generalizing h m with
  | nil => exact ht
  | cons q rest ih =>
    exact ih ((ht.follows q).imp (fun _ _ h => h.2) fun _ _ h => h.2).final

/-! ### The promise -/

theorem Tells.outcome_iff (ht : Tells h m) (q : Request) (words : List Word) :
    q.outcome m = .ok words ↔ (h.serve q).1 = some words := by
  have hfollows := ht.follows q
  rw [Follows, Step.Ends] at hfollows
  rw [Request.outcome]
  cases hq : q.serve m with
  | ok words' m' =>
    rw [hq] at hfollows
    rw [hfollows.1]
    simp
  | error f m' =>
    rw [hq] at hfollows
    rw [hfollows.1]
    simp

/-- There are no other regions in the gap after a region. -/
theorem Tells.mapped_gap (ht : Tells h m) {r : Region} (hr : r ∈ m.regions) {place : Nat}
    (hstop : r.stop ≤ place) (hgap : place < r.stop + Region.gapBytes) :
    h.mapped place = false := by
  rw [Bool.eq_false_iff, History.mapped, ne_eq, List.any_eq_true, ← ht.regions]
  rintro ⟨r', hr', hin⟩
  have hextent := le_extent r.bytes
  rw [Region.stop] at hstop hgap
  exact Owns.not_in_gap ht.sound (show m.Owns r.base r.bytes from hr)
    (show m.Owns r'.base r'.bytes from hr') hstop (by omega) (of_decide_eq_true hin)

/-- A request that goes to a place outside of all regions is refused. -/
theorem History.serve_eq_none {q : Request} {place : Nat} (hq : q.Touches place)
    (hplace : h.mapped place = false) : (h.serve q).1 = none := by
  obtain ⟨x, hx⟩ := hq
  rw [serve_eq_perform]
  · exact perform_eq_none hx hplace
  · rintro bytes rfl
    cases hx

theorem Tells.fresh (ht : Tells h m) (halloc : alloc bytes m = .ok base m')
    (ha : Region.holds ⟨base, bytes⟩ a = true) : m'.isDrained a = false ∧ m'.read a = .ok 0 := by
  obtain ⟨hroom, rfl, rfl⟩ := alloc_eq_ok_iff.mp halloc
  have ht' := ht.allocated (by rw [← ht.next]; exact hroom)
  rw [← ht.next, UInt64.ofNat_toNat] at ht'
  rw [holds_iff] at ha
  obtain ⟨htaken, hvalue⟩ := ht.untouched ha.1
  refine ⟨(ht'.isDrained a).trans htaken, ht'.read_iff.mpr ⟨?_, htaken, hvalue.symm⟩⟩
  rw [History.mapped, History.regions, List.any_cons, Bool.or_eq_true, decide_eq_true_eq]
  exact .inl ha

/-- The places of consecutive words. -/
def places (base : Word) (count : Nat) : List Nat :=
  (List.range count).map (base.toNat + wordBytes * ·)

theorem nodup_places (base : Word) (count : Nat) : (places base count).Nodup := by
  refine List.nodup_range.map fun i j heq => ?_
  simp only [wordBytes] at heq
  omega

theorem History.serve_takeWords (h : History) (base : Word) (count : Nat) :
    h.serve (.takeWords base count) = h.perform ((places base count).map (·, .take)) := by
  have key : ∀ index, along base.toNat index (List.replicate count .take) =
      ((List.range' index count).map (base.toNat + wordBytes * ·)).map (·, .take) := by
    induction count with
    | zero => exact fun _ => rfl
    | succ count ih =>
      intro index
      rw [List.replicate_succ, along, ih, List.range'_succ, List.map_cons, List.map_cons]
  rw [places, List.range_eq_range', ← key]
  rfl

theorem Tells.takeWords_iff (ht : Tells h m) {words : List Word} :
    (∃ m', takeWords base count m = .ok words m') ↔
      (∀ p ∈ places base count, h.mapped p = true ∧ h.taken p = false) ∧
        words = (places base count).map h.value := by
  have hanswer := (outcome_eq_ok (q := .takeWords base count) (m := m)).symm.trans
    (ht.outcome_iff _ words)
  rw [History.serve_takeWords] at hanswer
  refine hanswer.trans ⟨fun hsome => ?_, ?_⟩
  · have hall := History.admits_of_perform_takes hsome
    rw [History.perform_takes (nodup_places base count) hall] at hsome
    exact ⟨fun p hp => History.admits_take.mp (hall p hp), (Option.some.inj hsome).symm⟩
  · rintro ⟨hall, rfl⟩
    rw [History.perform_takes (nodup_places base count)
      fun p hp => History.admits_take.mpr (hall p hp)]

theorem Tells.drained_iff (ht : Tells h m) {words : List Word}
    (htake : takeWords base count m = .ok words m') :
    m'.isDrained a = true ↔ m.isDrained a = true ∨ a.toNat ∈ places base count := by
  have hall := (ht.takeWords_iff.mp ⟨m', htake⟩).1
  have ht' := (Step.Ends.ok (ht.follows (.takeWords base count)) htake).2
  rw [History.serve_takeWords, History.perform_takes (nodup_places base count)
    fun p hp => History.admits_take.mpr (hall p hp)] at ht'
  rw [ht'.isDrained, History.taken_takes, ht.isDrained, or_comm]

/-- What memory `m` promises when its history is `h`: it is a store of words that can be
moved out. -/
structure MovesWords (h : History) (m : Memory) : Prop where
  /-- The answer to any request is the one that follows from the history. -/
  answer : ∀ (q : Request) words, q.outcome m = .ok words ↔ (h.serve q).1 = some words
  regions : m.regions = h.regions
  aligned : ∀ r ∈ m.regions, 8 ∣ r.base.toNat
  /-- There are at least 16 bytes between two regions, the later of which is the upper. -/
  apart : m.regions.Pairwise fun r r' => r'.stop + 16 ≤ r.base.toNat
  /-- No access succeeds at the 16 bytes after a region. -/
  gap : ∀ r ∈ m.regions, ∀ place, r.stop ≤ place → place < r.stop + 16 →
    ∀ (q : Request) words, q.Touches place → q.outcome m ≠ .ok words
  /-- A region is allocated as long as there are addresses left for it. -/
  alloc : ∀ bytes, (∃ base m', alloc bytes m = .ok base m') ↔
    m.next.toNat + Region.extent bytes + 16 < 2 ^ 64
  /-- A fresh region holds zeros. -/
  fresh : ∀ bytes base m', Memory.alloc bytes m = .ok base m' →
    m'.regions = ⟨base, bytes⟩ :: m.regions ∧ ∀ a, Region.holds ⟨base, bytes⟩ a = true →
      m'.isDrained a = false ∧ m'.read a = .ok 0
  read : ∀ a v, m.read a = .ok v ↔
    h.mapped a.toNat = true ∧ h.taken a.toNat = false ∧ v = h.value a.toNat
  take : ∀ a v, (∃ m', take a m = .ok v m') ↔
    h.mapped a.toNat = true ∧ h.taken a.toNat = false ∧ v = h.value a.toNat
  write : ∀ a v, (∃ m', write a v m = .ok () m') ↔ h.mapped a.toNat = true
  /-- What is written can be read.  Later requests to other words are answered as they would
  be without it, whatever comes in between, as long as nobody takes several words at once and
  comes across the written one, where that would stop without the write. -/
  wrote : ∀ a v m', Memory.write a v m = .ok () m' → m'.read a = .ok v ∧
    ∀ between : List Request,
      (∀ q ∈ between, q.Touches a.toNat → ∀ base count, q ≠ .takeWords base count) →
      ∀ q : Request, ¬ q.Touches a.toNat →
        q.outcome (m'.after between) = q.outcome (m.after between)
  /-- An access that fails changes nothing. -/
  refused : ∀ (x : Access) a f m', x.run a m = .error f m' → m' = m
  /-- Several words are taken if each of them can be. -/
  takeWords : ∀ base count words, (∃ m', takeWords base count m = .ok words m') ↔
    (∀ k < count, h.mapped (base.toNat + 8 * k) = true ∧ h.taken (base.toNat + 8 * k) = false) ∧
      words = (List.range count).map fun k => h.value (base.toNat + 8 * k)
  /-- Those that were taken are drained then, and no others. -/
  drained : ∀ base count words m', Memory.takeWords base count m = .ok words m' → ∀ a,
    m'.isDrained a = true ↔
      m.isDrained a = true ∨ ∃ k < count, a.toNat = base.toNat + 8 * k

/-- At every point of a run, whatever was asked of fresh memory before: memory is a store
of words that can be moved out. -/
theorem moves_words (requests : List Request) :
    MovesWords (History.after [] requests) (Memory.after {} requests) := by
  have ht : Tells (History.after [] requests) (Memory.after {} requests) :=
    Tells.start.after requests
  generalize History.after [] requests = h at ht
  generalize Memory.after {} requests = m at ht
  refine {
    answer := ht.outcome_iff
    regions := ht.regions
    aligned := ht.aligned.2
    apart := ht.sound.ordered.imp fun {r r'} hle => ?_
    gap := fun r hr place hstop hgap q words htouches hok => ?_
    alloc := fun bytes => ?_
    fresh := fun bytes base m' halloc => ?_
    read := fun a v => ht.read_iff
    take := fun a v => ?_
    write := fun a v => ?_
    wrote := fun a v m' hwrite => ?_
    refused := fun x a f m' hrun => (off_run x a m).error hrun
    takeWords := fun base count words => ?_
    drained := fun base count words m' htake a => ?_ }
  · have hextent := le_extent r'.bytes
    simp only [Region.gapBytes, Region.stop] at hle ⊢
    omega
  · rw [ht.outcome_iff, History.serve_eq_none htouches (ht.mapped_gap hr hstop hgap)] at hok
    cases hok
  · simp only [alloc_eq_ok_iff, exists_and_left, exists_eq', and_true, Region.gapBytes]
  · refine ⟨?_, fun a => ht.fresh halloc⟩
    obtain ⟨-, rfl, rfl⟩ := alloc_eq_ok_iff.mp halloc
    rfl
  · rw [take_eq_ok_iff, ht.read_iff]
  · rw [write_eq_ok_iff, ht.isMapped]
  · have hmapped := write_eq_ok_iff.mp ⟨m', hwrite⟩
    rw [write_ok hmapped] at hwrite
    cases hwrite
    refine ⟨read_put_self hmapped v, fun between hbetween q hq => ?_⟩
    exact ((blind_serve hq).outcome_eq ((off_put a m _).after hbetween)).1
  · rw [ht.takeWords_iff, places, List.forall_mem_map, List.map_map]
    simp only [List.mem_range]
    rfl
  · rw [ht.drained_iff htake, places, List.mem_map]
    simp only [List.mem_range, eq_comm, wordBytes]

/-- Two words are to be taken together, the first of which is gone.  That stops it, and the second
word can still be read.  If the first one is written before, both are taken, and the second cannot
be read any more. -/
theorem takeWords_spreads :
    ∃ m', Memory.write 0x1000 5 (Memory.after {} [.alloc 16, .access .take 0x1000]) = .ok () m' ∧
      ¬ (Request.access .read 0x1008).Touches (0x1000 : Word).toNat ∧
      (Request.access .read 0x1008).outcome
        ((Memory.after {} [.alloc 16, .access .take 0x1000]).after [.takeWords 0x1000 2])
          = .ok [0] ∧
      (Request.access .read 0x1008).outcome (m'.after [.takeWords 0x1000 2])
        = .error (.machine (.useAfterTake 0x1008)) := by
  refine ⟨_, rfl, ?_, by decide, by decide⟩
  rintro ⟨x, hx⟩
  exact absurd (Prod.mk.inj (List.mem_singleton.mp hx)).1 (by decide)

/-- An empty region holds its base. -/
example : (Memory.after {} [.alloc 0, .alloc 3]).regions = [⟨0x1018, 3⟩, ⟨0x1000, 0⟩] ∧
    History.mapped (History.after [] [.alloc 0, .alloc 3]) 0x1000 = true := by decide

end Memory

end Dispatch
