import Dispatch.Proofs.Memory.Words

/-!
# Requests to memory

Memory is asked for regions, and to read, write and move out words, one at a time or
several.  A request for several words is nothing but accesses to one word each, one after
the other, up to the first that fails.  So what holds of an access carries over to every
request: in particular that it depends on the words that it touches, and on no others.

## Main definitions

* `Memory.Access` — an access to one word, `Memory.visit` — accesses to consecutive words.
* `Memory.Request`, `Memory.after` — requests, and what they make of memory.
* `Request.accesses`, `Request.Touches` — the accesses of a request, and where they go.
* `Memory.Off` — two memories differ at most in one word, `Memory.Blind` — a step does not
  depend on a word.

## Main results

* `Memory.Request.serve_eq_visit` — whatever is no allocation is a number of accesses.
* `Memory.blind_serve` — a request does not depend on a word that it does not touch.
* `Memory.Off.after` — requests do not spread a difference.
-/

namespace Dispatch

namespace Memory

open Word

/-! ### Requests -/

/-- What can be done with a word. -/
inductive Access where
  | read
  | write (value : Word)
  | take
  deriving DecidableEq, Repr

/-- Access the word at an address; the answer is what comes out. -/
def Access.run (a : Word) : Access → Step Memory (List Word)
  | read => do return [← (← get).read a]
  | write value => do
    Memory.write a value
    return []
  | take => do return [← Memory.take a]

/-- What memory can be asked for. -/
inductive Request where
  | alloc (bytes : Nat)
  | access (x : Access) (address : Word)
  | readWords (base : Word) (count : Nat)
  | writeWords (base : Word) (values : List Word)
  | takeWords (base : Word) (count : Nat)
  deriving DecidableEq, Repr

/-- Accesses to consecutive words, the first of which has the index `index`, with their
places.  A place is an address, or it lies beyond the last of them. -/
def along (base index : Nat) : List Access → List (Nat × Access)
  | [] => []
  | x :: rest => (base + wordBytes * index, x) :: along base (index + 1) rest

namespace Request

/-- Serve a request; the answer is the words that come out. -/
def serve : Request → Step Memory (List Word)
  | alloc bytes => do return [← Memory.alloc bytes]
  | access x address => x.run address
  | readWords base count => do (← get).readWords base count
  | writeWords base values => do
    Memory.writeWords base values
    return []
  | takeWords base count => Memory.takeWords base count

/-- What a request is answered with: words, or a fault. -/
def outcome (q : Request) (m : Memory) : Attempt (List Word) :=
  match q.serve m with
  | .ok words _ => .ok words
  | .error fault _ => .error fault

/-- The accesses of a request, in their order. -/
def accesses : Request → List (Nat × Access)
  | alloc _ => []
  | access x address => along address.toNat 0 [x]
  | readWords base count => along base.toNat 0 (List.replicate count .read)
  | writeWords base values => along base.toNat 0 (values.map .write)
  | takeWords base count => along base.toNat 0 (List.replicate count .take)

/-- One of the accesses of a request goes there. -/
def Touches (q : Request) (place : Nat) : Prop := ∃ x, (place, x) ∈ q.accesses

end Request

/-- Memory after some requests, one after the other; some may have failed. -/
def after (m : Memory) (requests : List Request) : Memory :=
  requests.foldl (fun m q => q.serve.final m) m

variable {m m' : Memory} {a b base : Word} {v : Word} {index count bytes : Nat}

/-! ### When a request succeeds -/

theorem read_eq_ok_iff :
    m.read a = .ok v ↔ m.isMapped a = true ∧ (m.cell? a).getD (some 0) = some v := by
  rw [Memory.read]
  cases m.isMapped a with
  | false => simp
  | true => rcases m.cell? a with - | - | w <;> simp

theorem isDrained_iff : m.isDrained a = true ↔ (m.cell? a).getD (some 0) = none := by
  rw [isDrained, beq_iff_eq]
  rcases m.cell? a with - | - | w <;> simp

theorem take_eq_ok_iff : (∃ m', take a m = .ok v m') ↔ m.read a = .ok v := by
  cases hv : m.read a with
  | ok w => simp [take_ok hv]
  | error f => simp [take_error hv]

theorem write_eq_ok_iff : (∃ m', write a v m = .ok () m') ↔ m.isMapped a = true := by
  cases hmapped : m.isMapped a with
  | true => simp [write_ok hmapped]
  | false => simp [write_error hmapped]

theorem alloc_eq_ok_iff {base : Word} : alloc bytes m = .ok base m' ↔
    m.next.toNat + Region.extent bytes + Region.gapBytes < 2 ^ 64 ∧
      m.next = base ∧ m.allocated bytes = m' := by
  by_cases hroom : m.next.toNat + Region.extent bytes + Region.gapBytes < 2 ^ 64
  · rw [alloc_ok hroom, EStateM.Result.ok.injEq]
    exact ⟨fun hok => ⟨hroom, hok⟩, fun hok => hok.2⟩
  · rw [alloc_error hroom]
    exact iff_of_false nofun fun hok => hroom hok.1

theorem outcome_eq_ok {q : Request} {words : List Word} :
    q.outcome m = .ok words ↔ ∃ m', q.serve m = .ok words m' := by
  rw [Request.outcome]
  cases q.serve m with
  | ok words' m' => simp
  | error f m' => simp

/-! ### Several words are one after the other -/

/-- Consecutive accesses, the first of which goes to the word with the index `index`. -/
def visit (base : Word) (index : Nat) : List Access → Step Memory (List Word)
  | [] => return []
  | x :: rest => do
    let words ← x.run (← wordAddress base index)
    let others ← visit base (index + 1) rest
    return words ++ others

theorem takeFrom_eq_visit (base : Word) (index count : Nat) :
    takeFrom base index count = visit base index (List.replicate count .take) := by
  induction count generalizing index with
  | zero => rfl
  | succ count ih => simp [takeFrom, visit, List.replicate_succ, Access.run, ih]

theorem writeFrom_eq_visit (base : Word) (index : Nat) (values : List Word) :
    (do
      writeFrom base index values
      return []) = visit base index (values.map .write) := by
  induction values generalizing index with
  | nil => rfl
  | cons v rest ih => simp [writeFrom, visit, Access.run, ← ih]

/-- To read changes nothing, so it does not matter that several words are read at once. -/
theorem readFrom_eq_visit (m : Memory) (base : Word) (index count : Nat) :
    (liftM (m.readFrom base index count) : Step Memory (List Word)) m =
      visit base index (List.replicate count .read) m := by
  induction count generalizing index with
  | zero => rfl
  | succ count ih =>
    rw [List.replicate_succ, readFrom, visit, Step.liftM_bind]
    cases wordAddress base index with
    | error f => rfl
    | ok a =>
      rw [Step.bind_of_ok Step.run_liftM_ok, Step.bind_of_ok Step.run_liftM_ok, Step.liftM_bind,
        Access.run, bind_assoc, Step.bind_of_ok Step.run_get, bind_assoc]
      cases m.read a with
      | error f => rfl
      | ok v =>
        rw [Step.bind_of_ok Step.run_liftM_ok, Step.bind_of_ok Step.run_liftM_ok, pure_bind,
          Step.liftM_bind]
        exact Step.run_bind_congr (ih (index + 1)) _

/-- Whatever is no allocation is a number of accesses. -/
theorem Request.serve_eq_visit {q : Request} (hq : ∀ bytes, q ≠ .alloc bytes) :
    ∃ base xs, q.accesses = along base.toNat 0 xs ∧ q.serve = visit base 0 xs := by
  cases q with
  | alloc bytes => exact absurd rfl (hq bytes)
  | access x a =>
    have hlt := a.toNat_lt
    have ha : (liftM (wordAddress a 0) : Step Memory Word) = pure a := by
      rw [wordAddress_eq (by omega), Nat.mul_zero, plus_zero]
      rfl
    refine ⟨a, [x], rfl, ?_⟩
    simp only [serve, visit, ha, pure_bind, List.append_nil, bind_pure]
  | readWords base count => exact ⟨base, _, rfl, funext fun m => readFrom_eq_visit m base 0 count⟩
  | writeWords base values => exact ⟨base, _, rfl, writeFrom_eq_visit base 0 values⟩
  | takeWords base count => exact ⟨base, _, rfl, takeFrom_eq_visit base 0 count⟩

/-- The word with the index starts at most one word beyond the last address.  No access gets
further than that, since there it fails. -/
def InReach (base : Word) (index : Nat) : Prop :=
  base.toNat + wordBytes * index < 2 ^ 64 + wordBytes

theorem inReach_zero (base : Word) : InReach base 0 := by
  have hlt := base.toNat_lt
  simp only [InReach, wordBytes]
  omega

/-- A word that has an address is at its place, and the next word is in reach. -/
theorem InReach.next (hreach : InReach base index) (ha : wordAddress base index = .ok a) :
    a.toNat = base.toNat + wordBytes * index ∧ InReach base (index + 1) := by
  have hlt := a.toNat_lt
  simp only [InReach, wordBytes] at hreach ⊢
  have hplace := toNat_of_wordAddress ha (by omega)
  rw [wordBytes] at hplace
  exact ⟨hplace, by omega⟩

/-! ### The other words -/

/-- Two memories that differ at most in one word. -/
structure Off (a : Word) (m m' : Memory) : Prop where
  regions : m'.regions = m.regions
  next : m'.next = m.next
  cell : ∀ b, b ≠ a → m'.cell? b = m.cell? b

theorem Off.refl (a : Word) (m : Memory) : Off a m m := ⟨rfl, rfl, fun _ _ => rfl⟩

theorem Off.symm (hoff : Off a m m') : Off a m' m :=
  ⟨hoff.regions.symm, hoff.next.symm, fun b hb => (hoff.cell b hb).symm⟩

theorem Off.trans {m'' : Memory} (hoff : Off a m m') (hoff' : Off a m' m'') : Off a m m'' :=
  ⟨hoff'.regions.trans hoff.regions, hoff'.next.trans hoff.next,
    fun b hb => (hoff'.cell b hb).trans (hoff.cell b hb)⟩

theorem off_put (a : Word) (m : Memory) (c : Option Word) : Off a m (m.put a c) :=
  ⟨rfl, rfl, fun b hb => by rw [cell?_put, if_neg (Ne.symm hb)]⟩

theorem Off.put (hoff : Off a m m') (b : Word) (c : Option Word) :
    Off a (m.put b c) (m'.put b c) :=
  ⟨hoff.regions, hoff.next, fun b' hb' => by rw [cell?_put, cell?_put, hoff.cell b' hb']⟩

theorem Off.isMapped (hoff : Off a m m') (b : Word) : m'.isMapped b = m.isMapped b := by
  rw [Memory.isMapped, Memory.isMapped, regionBelow?, regionBelow?, hoff.regions]

theorem Off.read (hoff : Off a m m') (hb : b ≠ a) : m'.read b = m.read b := by
  rw [Memory.read, Memory.read, hoff.isMapped, hoff.cell b hb]

variable {α β : Type}

/-- Two runs that end alike, with memories that differ at most in one word. -/
inductive Alike (a : Word) :
    EStateM.Result Fault Memory α → EStateM.Result Fault Memory α → Prop
  | ok {m m' : Memory} (v : α) (hoff : Off a m m') : Alike a (.ok v m) (.ok v m')
  | error {m m' : Memory} (f : Fault) (hoff : Off a m m') : Alike a (.error f m) (.error f m')

/-- What a word holds makes no difference to a step. -/
def Blind (a : Word) (x : Step Memory α) : Prop := ∀ m m', Off a m m' → Alike a (x m) (x m')

theorem blind_pure (a : Word) (v : α) : Blind a (pure v : Step Memory α) :=
  fun _ _ hoff => .ok v hoff

theorem Blind.bind {x : Step Memory α} {f : α → Step Memory β} (hx : Blind a x)
    (hf : ∀ v, Blind a (f v)) : Blind a (x >>= f) := by
  intro m m' hoff
  have halike := hx m m' hoff
  simp only [Bind.bind, EStateM.bind]
  generalize x m = result at halike ⊢
  generalize x m' = result' at halike ⊢
  cases halike with
  | ok v hoff' => exact hf v _ _ hoff'
  | error f hoff' => exact .error f hoff'

theorem blind_liftM_bind {attempt : Attempt α} {f : α → Step Memory β}
    (hf : ∀ v, attempt = .ok v → Blind a (f v)) :
    Blind a ((liftM attempt : Step Memory α) >>= f) := by
  cases attempt with
  | ok v => exact hf v rfl
  | error fault => exact fun _ _ hoff => .error fault hoff

/-- What a word holds makes no difference to what is written, there or anywhere. -/
theorem blind_write (a b v : Word) : Blind a (Access.run b (.write v)) := by
  intro m m' hoff
  have hmapped := hoff.isMapped b
  rw [Access.run]
  cases h : m.isMapped b with
  | true =>
    rw [Step.bind_of_ok (write_ok h v), Step.bind_of_ok (write_ok (hmapped.trans h) v)]
    exact .ok [] (hoff.put b _)
  | false =>
    rw [Step.bind_of_error (write_error h v),
      Step.bind_of_error (write_error (hmapped.trans h) v)]
    exact .error _ hoff

/-- An access to another word. -/
theorem blind_run (x : Access) (hb : b ≠ a) : Blind a (x.run b) := by
  intro m m' hoff
  cases x with
  | read =>
    simp only [Access.run, Step.bind_of_ok Step.run_get, hoff.read hb]
    cases m.read b with
    | ok v => exact .ok [v] hoff
    | error f => exact .error f hoff
  | write v => exact blind_write a b v m m' hoff
  | take =>
    have hread := hoff.read hb
    rw [Access.run]
    cases h : m.read b with
    | ok v =>
      rw [Step.bind_of_ok (take_ok h), Step.bind_of_ok (take_ok (hread.trans h))]
      exact .ok [v] (hoff.put b _)
    | error f =>
      rw [Step.bind_of_error (take_error h), Step.bind_of_error (take_error (hread.trans h))]
      exact .error f hoff

/-- Accesses that do nothing with a word but write it. -/
theorem blind_visit {xs : List Access} (hreach : InReach base index)
    (ha : ∀ x, (a.toNat, x) ∈ along base.toNat index xs → ∃ v, x = .write v) :
    Blind a (visit base index xs) := by
  induction xs generalizing index with
  | nil => exact blind_pure a []
  | cons x rest ih =>
    simp only [along, List.mem_cons] at ha
    rw [visit]
    refine blind_liftM_bind fun b hb => ?_
    obtain ⟨hplace, hnext⟩ := hreach.next hb
    have hrest : Blind a (visit base (index + 1) rest) := ih hnext fun x' hx => ha x' (.inr hx)
    have hfirst : Blind a (x.run b) := by
      by_cases hba : b = a
      case neg => exact blind_run x hba
      case pos =>
        obtain ⟨v, rfl⟩ := ha x (.inl (by rw [← hba, hplace]))
        exact blind_write a b v
    exact hfirst.bind fun _ => hrest.bind fun _ => blind_pure a _

/-- A request that does nothing with a word but write it does not depend on it. -/
theorem blind_serve_of_writes {q : Request}
    (hq : ∀ x, (a.toNat, x) ∈ q.accesses → ∃ v, x = .write v) : Blind a q.serve := by
  by_cases halloc : ∃ bytes, q = .alloc bytes
  · obtain ⟨bytes, rfl⟩ := halloc
    rw [Request.serve]
    refine Blind.bind (fun m m' hoff => ?_) fun _ => blind_pure a _
    by_cases hroom : m.next.toNat + Region.extent bytes + Region.gapBytes < 2 ^ 64
    · rw [alloc_ok hroom, alloc_ok (by rw [hoff.next]; exact hroom), hoff.next]
      refine .ok _ ⟨?_, ?_, hoff.cell⟩
      · rw [allocated, allocated, hoff.regions, hoff.next]
      · rw [allocated, allocated, hoff.next]
    · rw [alloc_error hroom, alloc_error (by rw [hoff.next]; exact hroom)]
      exact .error _ hoff
  · obtain ⟨base, xs, haccesses, hserve⟩ := q.serve_eq_visit fun bytes heq => halloc ⟨bytes, heq⟩
    rw [hserve]
    refine blind_visit (inReach_zero base) fun x hx => hq x ?_
    rw [haccesses]
    exact hx

/-- A request that does not touch a word does not depend on it. -/
theorem blind_serve {q : Request} (hq : ¬ q.Touches a.toNat) : Blind a q.serve :=
  blind_serve_of_writes fun x hx => absurd ⟨x, hx⟩ hq

theorem Blind.outcome_eq {q : Request} (hq : Blind a q.serve) (hoff : Off a m m') :
    q.outcome m' = q.outcome m ∧ Off a (q.serve.final m) (q.serve.final m') := by
  have halike := hq m m' hoff
  rw [Request.outcome, Request.outcome, Step.final, Step.final]
  generalize q.serve m = result at halike ⊢
  generalize q.serve m' = result' at halike ⊢
  cases halike with
  | ok v hoff' => exact ⟨rfl, hoff'⟩
  | error f hoff' => exact ⟨rfl, hoff'⟩

/-- What one access changes. -/
theorem off_run (x : Access) (a : Word) (m : Memory) :
    Step.Ends (x.run a) m (fun _ m' => Off a m m') fun _ m' => m' = m := by
  cases x with
  | read =>
    rw [Access.run, Step.ends_bind, Step.ends_get, Step.ends_bind, Step.ends_liftM]
    exact ⟨fun v _ => .refl a m, fun f _ => rfl⟩
  | write v =>
    rw [Access.run, Step.ends_bind]
    cases hmapped : m.isMapped a with
    | true => exact Step.ends_of_ok (write_ok hmapped v) (off_put a m _)
    | false => exact Step.ends_of_error (write_error hmapped v) rfl
  | take =>
    rw [Access.run, Step.ends_bind]
    cases hv : m.read a with
    | ok v => exact Step.ends_of_ok (take_ok hv) (off_put a m _)
    | error f => exact Step.ends_of_error (take_error hv) rfl

theorem eq_write_of_mem_along {values : List Word} {start : Nat} {x : Access} {place : Nat}
    (hx : (place, x) ∈ along start index (values.map .write)) : ∃ v, x = .write v := by
  induction values generalizing index with
  | nil => cases hx
  | cons v rest ih =>
    rw [List.map_cons, along] at hx
    rcases List.mem_cons.mp hx with heq | hx
    · exact ⟨v, (Prod.mk.inj heq).2⟩
    · exact ih hx

/-- A request does not spread a difference in one word to others, unless it takes several
words and stops at that one. -/
theorem Off.serve {q : Request} (hoff : Off a m m')
    (hq : q.Touches a.toNat → ∀ base count, q ≠ .takeWords base count) :
    Off a (q.serve.final m) (q.serve.final m') := by
  by_cases htouches : q.Touches a.toNat
  case neg => exact ((blind_serve htouches).outcome_eq hoff).2
  case pos =>
    cases q with
    | alloc bytes =>
      obtain ⟨x, hx⟩ := htouches
      cases hx
    | access x b =>
      have hab : b = a := by
        obtain ⟨x', hx'⟩ := htouches
        exact (UInt64.toNat_inj.mp (Prod.mk.inj (List.mem_singleton.mp hx')).1).symm
      subst hab
      have hself : ∀ m₁, Off b m₁ ((Request.access x b).serve.final m₁) := fun m₁ =>
        ((off_run x b m₁).imp (fun _ _ h => h) fun _ _ h => h ▸ .refl b m₁).final
      exact ((hself m).symm.trans hoff).trans (hself m')
    | readWords base count =>
      -- nothing is changed at all
      have hsame : ∀ m₁, (Request.readWords base count).serve.final m₁ = m₁ := by
        intro m₁
        have hends : Step.Ends (Request.readWords base count).serve m₁
            (fun _ m₂ => m₂ = m₁) fun _ m₂ => m₂ = m₁ := by
          rw [Request.serve, Step.ends_bind, Step.ends_get, Step.ends_liftM]
          exact ⟨fun _ _ => rfl, fun _ _ => rfl⟩
        exact hends.final
      rwa [hsame, hsame]
    | writeWords base values =>
      exact ((blind_serve_of_writes fun x hx => eq_write_of_mem_along hx).outcome_eq hoff).2
    | takeWords base count => exact absurd rfl (hq htouches base count)

/-- Nor do any number of such requests. -/
theorem Off.after {requests : List Request} (hoff : Off a m m')
    (hall : ∀ q ∈ requests, q.Touches a.toNat → ∀ base count, q ≠ .takeWords base count) :
    Off a (m.after requests) (m'.after requests) := by
  induction requests generalizing m m' with
  | nil => exact hoff
  | cons q rest ih =>
    exact ih (hoff.serve (hall q List.mem_cons_self)) fun q' hq' =>
      hall q' (List.mem_cons_of_mem _ hq')

end Memory

end Dispatch
