import Dispatch.Machine.Memory
import Dispatch.Proofs.Step

/-!
# The theory of memory

Memory is used in one way throughout: regions are added at the top, and words of
regions are written and taken.  `Memory.Evolves` says so and names the words that
may have changed.  Everything that was readable elsewhere stays readable, which is
all that the tables of a module need in order to stay as they are.

## Main definitions

* `Word.plus` — an address some bytes further on.
* `Memory.Sound` — regions lie one above the other, with gaps, below `next`.
* `Memory.Owns` — a region with this base and size.
* `Memory.Evolves m changed m'` — `m'` comes after `m`, and the two differ at most in
  fresh words and in words of `changed`.

## Main results

* `Memory.Sound.isMapped_iff` — an address is mapped exactly inside a region.
* `Memory.Evolves.read_eq` — reading elsewhere gives what it gave before.
* `Memory.writeFrom_ok`, `Memory.takeFrom_ok` — storing and moving several words.
-/

namespace Dispatch

/-! ### Addresses -/

namespace Word

/-- The address some bytes further on. -/
def plus (base : Word) (bytes : Nat) : Word := base + UInt64.ofNat bytes

theorem toNat_plus {base : Word} {bytes : Nat} (h : base.toNat + bytes < 2 ^ 64) :
    (base.plus bytes).toNat = base.toNat + bytes := by
  rw [plus, UInt64.toNat_add, UInt64.toNat_ofNat_of_lt' (by simp only [UInt64.size]; omega)]
  exact Nat.mod_eq_of_lt h

@[simp] theorem plus_zero (base : Word) : base.plus 0 = base := by
  simp [plus]

theorem plus_plus (base : Word) (a b : Nat) : (base.plus a).plus b = base.plus (a + b) := by
  rw [plus, plus, plus, UInt64.ofNat_add, UInt64.add_assoc]

end Word

open Word

theorem addWord_ofNat {base : Word} {bytes : Nat} (h : base.toNat + bytes < 2 ^ 64) :
    addWord base (UInt64.ofNat bytes) = .ok (base.plus bytes) := by
  have hb : (UInt64.ofNat bytes).toNat = bytes :=
    UInt64.toNat_ofNat_of_lt' (by simp only [UInt64.size]; omega)
  have h' : Word.add? base (UInt64.ofNat bytes) = some (base.plus bytes) := by
    rw [Word.add?_eq_some_iff, hb, toNat_plus h]
  rw [addWord, h', Attempt.fits]

/-- A checked sum is never below its first term. -/
theorem le_of_addWord {a b c : Word} (h : addWord a b = .ok c) : a.toNat ≤ c.toNat := by
  unfold addWord at h
  cases hab : Word.add? a b with
  | none =>
    rw [hab] at h
    simp [Attempt.fits] at h
  | some d =>
    rw [hab] at h
    simp only [Attempt.fits, Except.ok.injEq] at h
    rw [← h, ← Word.add?_eq_some_iff.mp hab]
    omega

namespace Memory

theorem wordAddress_eq {base : Word} {index : Nat} (h : base.toNat + 8 * index < 2 ^ 64) :
    wordAddress base index = .ok (base.plus (8 * index)) := by
  have hi : (UInt64.ofNat index).toNat = index :=
    UInt64.toNat_ofNat_of_lt' (by simp only [UInt64.size]; omega)
  have h8 : (UInt64.ofNat wordBytes).toNat = 8 := rfl
  have hm : Word.mul? (UInt64.ofNat wordBytes) (UInt64.ofNat index)
      = some (UInt64.ofNat (8 * index)) := by
    rw [Word.mul?_eq_some_iff, h8, hi,
      UInt64.toNat_ofNat_of_lt' (by simp only [UInt64.size]; omega)]
  simp only [wordAddress, mulWord, hm, Attempt.fits, bind, Except.bind]
  exact addWord_ofNat h

theorem le_of_wordAddress {base a : Word} {index : Nat} (h : wordAddress base index = .ok a) :
    base.toNat ≤ a.toNat := by
  unfold wordAddress at h
  cases hm : mulWord (UInt64.ofNat wordBytes) (UInt64.ofNat index) with
  | error f => simp [hm, bind, Except.bind] at h
  | ok b =>
    simp only [hm, bind, Except.bind] at h
    exact le_of_addWord h

theorem toNat_of_wordAddress {base a : Word} {index : Nat} (ha : wordAddress base index = .ok a)
    (hindex : index < 2 ^ 64) : a.toNat = base.toNat + wordBytes * index := by
  have hword : (UInt64.ofNat index).toNat = index := UInt64.toNat_ofNat_of_lt' hindex
  rw [wordAddress, mulWord] at ha
  cases hmul : Word.mul? (UInt64.ofNat wordBytes) (UInt64.ofNat index) with
  | none =>
    rw [hmul] at ha
    cases ha
  | some offset =>
    rw [hmul] at ha
    change addWord base offset = .ok a at ha
    rw [addWord] at ha
    cases hadd : Word.add? base offset with
    | none =>
      rw [hadd] at ha
      cases ha
    | some sum =>
      rw [hadd] at ha
      cases ha
      rw [Word.mul?_eq_some_iff, hword] at hmul
      rw [← Word.add?_eq_some_iff.mp hadd, ← hmul]
      rfl

/-! ### Regions -/

/-- Regions lie one above the other, the latest first, with a gap above each; and
nothing was written outside of them. -/
structure Sound (m : Memory) : Prop where
  start : 0x1000 ≤ m.next.toNat
  low : ∀ r ∈ m.regions, 0x1000 ≤ r.base.toNat
  ordered : m.regions.Pairwise fun r r' =>
    r'.base.toNat + Region.extent r'.bytes + Region.gapBytes ≤ r.base.toNat
  high : ∀ r ∈ m.regions,
    r.base.toNat + Region.extent r.bytes + Region.gapBytes ≤ m.next.toNat
  written : ∀ c ∈ m.cells, c.1.toNat < m.next.toNat

theorem sound_empty : Sound {} where
  start := by decide
  low := by simp
  ordered := by simp
  high := by simp
  written := by simp

/-- There is a region with this base and size. -/
def Owns (m : Memory) (base : Word) (bytes : Nat) : Prop := ⟨base, bytes⟩ ∈ m.regions

theorem le_extent (bytes : Nat) : max bytes 1 ≤ Region.extent bytes := by
  simp only [Region.extent, wordBytes]
  omega

theorem extent_lt {bytes : Nat} (h : bytes < Size.limit) : Region.extent bytes < 2 ^ 33 := by
  simp only [Region.extent, wordBytes, Size.limit, UInt32.size] at *
  omega

theorem holds_iff {r : Region} {a : Word} :
    r.holds a = true ↔ r.base.toNat ≤ a.toNat ∧ a.toNat < r.base.toNat + max r.bytes 1 := by
  simp [Region.holds, UInt64.le_iff_toNat_le]

variable {m m' m'' : Memory} {a base : Word} {bytes : Nat}

/-- An address is mapped exactly when it lies inside a region: the nearest region
below it is the only candidate. -/
theorem Sound.isMapped_iff (hm : m.Sound) :
    m.isMapped a = true ↔ ∃ r ∈ m.regions, r.holds a = true := by
  have key : ∀ rs : List Region,
      rs.Pairwise (fun r r' =>
        r'.base.toNat + Region.extent r'.bytes + Region.gapBytes ≤ r.base.toNat) →
      (((rs.find? fun r => decide (r.base ≤ a)).any fun r => r.holds a) = true ↔
        ∃ r ∈ rs, r.holds a = true) := by
    intro rs
    induction rs with
    | nil => simp
    | cons r rs ih =>
      intro hord
      rw [List.pairwise_cons] at hord
      by_cases hr : r.base ≤ a
      · -- every later region ends below `r`, so none of them holds `a`
        have hno : ∀ r' ∈ rs, ¬ r'.holds a = true := by
          intro r' hr' hh
          rw [holds_iff] at hh
          have h1 := hord.1 r' hr'
          have h2 := le_extent r'.bytes
          rw [UInt64.le_iff_toNat_le] at hr
          omega
        simp only [List.find?_cons, hr, decide_true, Option.any_some, List.mem_cons,
          exists_eq_or_imp]
        constructor
        · exact Or.inl
        · rintro (h | ⟨r', hr', hh⟩)
          · exact h
          · exact absurd hh (hno r' hr')
      · have hnh : ¬ r.holds a = true := by
          rw [holds_iff]
          rw [UInt64.le_iff_toNat_le] at hr
          omega
        simp only [List.find?_cons, hr, decide_false, List.mem_cons, exists_eq_or_imp]
        rw [ih hord.2]
        simp [hnh]
  exact key m.regions hm.ordered

theorem Sound.lt_next_of_isMapped (hm : m.Sound) (h : m.isMapped a = true) :
    a.toNat < m.next.toNat := by
  obtain ⟨r, hr, hh⟩ := hm.isMapped_iff.mp h
  rw [holds_iff] at hh
  have h1 := hm.high r hr
  have h2 := le_extent r.bytes
  omega

theorem Owns.lt_next (hm : m.Sound) (h : m.Owns base bytes) :
    base.toNat + max bytes 1 + 16 ≤ m.next.toNat := by
  have h1 := hm.high _ h
  have h2 := le_extent bytes
  simp only [Region.gapBytes] at h1
  omega

/-- Every offset inside a region is an address, and is mapped. -/
theorem Owns.toNat_plus (hm : m.Sound) (h : m.Owns base bytes) {off : Nat}
    (hoff : off < max bytes 1) : (base.plus off).toNat = base.toNat + off := by
  have := h.lt_next hm
  have := m.next.toNat_lt
  exact Word.toNat_plus (by omega)

theorem Owns.isMapped (hm : m.Sound) (h : m.Owns base bytes) {off : Nat}
    (hoff : off < max bytes 1) : m.isMapped (base.plus off) = true := by
  rw [hm.isMapped_iff]
  refine ⟨⟨base, bytes⟩, h, ?_⟩
  rw [holds_iff, h.toNat_plus hm hoff]
  simp only
  omega

/-- Two regions are the same, or one ends before the other starts. -/
theorem Owns.apart (hm : m.Sound) (h : m.Owns base bytes) {base' : Word} {bytes' : Nat}
    (h' : m.Owns base' bytes') :
    (base = base' ∧ bytes = bytes') ∨ base.toNat + Region.extent bytes + 16 ≤ base'.toNat ∨
      base'.toNat + Region.extent bytes' + 16 ≤ base.toNat := by
  obtain ⟨i, hi, hri⟩ := List.mem_iff_getElem.mp h
  obtain ⟨j, hj, hrj⟩ := List.mem_iff_getElem.mp h'
  have hord := List.pairwise_iff_getElem.mp hm.ordered
  rcases Nat.lt_trichotomy i j with hlt | rfl | hlt
  · have := hord i j hi hj hlt
    rw [hri, hrj] at this
    exact Or.inr (Or.inr this)
  · rw [hri] at hrj
    cases hrj
    exact Or.inl ⟨rfl, rfl⟩
  · have := hord j i hj hi hlt
    rw [hri, hrj] at this
    exact Or.inr (Or.inl this)

theorem Owns.end_le (hm : m.Sound) {words : Nat} (h : m.Owns base (8 * words)) :
    base.toNat + 8 * max words 1 + 16 ≤ m.next.toNat := by
  have hhigh := hm.high _ h
  simp only [Region.extent, Region.gapBytes, wordBytes] at hhigh
  omega

/-- No region reaches into the gap above another. -/
theorem Owns.not_in_gap (hm : m.Sound) (h : m.Owns base bytes) {base' : Word} {bytes' : Nat}
    (h' : m.Owns base' bytes') {place : Nat} (hend : base.toNat + max bytes 1 ≤ place)
    (hgap : place < base.toNat + Region.extent bytes + Region.gapBytes) :
    ¬ (base'.toNat ≤ place ∧ place < base'.toNat + max bytes' 1) := by
  rintro ⟨hle, hlt⟩
  have hextent := le_extent bytes'
  simp only [Region.gapBytes] at hgap
  rcases h.apart hm h' with ⟨hbase, hbytes⟩ | hbelow | habove
  · rw [← hbase, ← hbytes] at hlt
    omega
  · omega
  · omega

/-- No region holds the word after the last of another. -/
theorem Owns.not_isMapped_end (hm : m.Sound) {words : Nat} (h : m.Owns base (8 * words)) :
    m.isMapped (base.plus (8 * max words 1)) = false := by
  rw [Bool.eq_false_iff]
  intro hmapped
  obtain ⟨r, hr, hholds⟩ := hm.isMapped_iff.mp hmapped
  have hlt := m.next.toNat_lt
  have hend := h.end_le hm
  rw [holds_iff, Word.toNat_plus (by omega)] at hholds
  have hextent := le_extent (8 * words)
  refine h.not_in_gap hm (show m.Owns r.base r.bytes from hr) ?_ ?_ hholds
  · omega
  · simp only [Region.extent, Region.gapBytes, wordBytes]
    omega

/-- The base of a region finds the region. -/
theorem Owns.regionSize (hm : m.Sound) (h : m.Owns base bytes) :
    m.regionSize? base = some bytes := by
  have key : ∀ rs : List Region,
      rs.Pairwise (fun r r' =>
        r'.base.toNat + Region.extent r'.bytes + Region.gapBytes ≤ r.base.toNat) →
      (⟨base, bytes⟩ : Region) ∈ rs →
      (rs.find? fun r => r.base == base).map Region.bytes = some bytes := by
    intro rs
    induction rs with
    | nil => simp
    | cons r rs ih =>
      intro hord hmem
      rw [List.pairwise_cons] at hord
      rcases List.mem_cons.mp hmem with rfl | hmem
      · simp
      · have h1 := hord.1 _ hmem
        have hne : (r.base == base) = false := by
          rw [beq_eq_false_iff_ne]
          rintro rfl
          simp only [Region.gapBytes] at h1
          omega
        rw [List.find?_cons, hne]
        exact ih hord.2 hmem
  exact key m.regions hm.ordered h

/-! ### Single words -/

/-- Memory in which the last thing that happened to a word is `c`. -/
def put (m : Memory) (a : Word) (c : Option Word) : Memory := { m with cells := (a, c) :: m.cells }

@[simp] theorem put_regions (m : Memory) (a : Word) (c : Option Word) :
    (m.put a c).regions = m.regions := rfl

@[simp] theorem put_next (m : Memory) (a : Word) (c : Option Word) :
    (m.put a c).next = m.next := rfl

@[simp] theorem put_isMapped (m : Memory) (a b : Word) (c : Option Word) :
    (m.put a c).isMapped b = m.isMapped b := rfl

theorem cell?_put (m : Memory) (a b : Word) (c : Option Word) :
    (m.put a c).cell? b = if a = b then some c else m.cell? b := by
  by_cases h : a = b <;> simp [put, cell?, h]

theorem Sound.put (hm : m.Sound) (h : m.isMapped a = true) (c : Option Word) :
    (m.put a c).Sound where
  start := hm.start
  low := hm.low
  ordered := hm.ordered
  high := hm.high
  written := by
    intro c' hc'
    rcases List.mem_cons.mp hc' with rfl | hc'
    · exact hm.lt_next_of_isMapped h
    · exact hm.written c' hc'

theorem isMapped_of_read {v : Word} (h : m.read a = .ok v) : m.isMapped a = true := by
  unfold read at h
  split at h
  · assumption
  · cases h

theorem read_put_self (h : m.isMapped a = true) (v : Word) :
    (m.put a (some v)).read a = .ok v := by
  simp [read, cell?_put, h]

theorem read_put_of_ne {b : Word} (hne : a ≠ b) (c : Option Word) :
    (m.put a c).read b = m.read b := by
  simp [read, cell?_put, hne]

theorem isDrained_put_self (m : Memory) (a : Word) : (m.put a none).isDrained a = true := by
  simp [isDrained, cell?_put]

theorem write_ok (h : m.isMapped a = true) (v : Word) :
    write a v m = .ok () (m.put a (some v)) := by
  simp only [write, Step.bind_of_ok Step.run_get, h, if_true, Step.run_set, put]

theorem write_error (h : m.isMapped a = false) (v : Word) :
    write a v m = .error (.machine (.unmapped a)) m := by
  simp only [write, Step.bind_of_ok Step.run_get, h, Bool.false_eq_true, if_false,
    Step.run_throw]

theorem take_ok {v : Word} (h : m.read a = .ok v) : take a m = .ok v (m.put a none) := by
  simp only [take, Step.bind_of_ok Step.run_get, h, Step.bind_of_ok Step.run_liftM_ok,
    Step.bind_of_ok Step.run_set, Step.run_pure, put]

theorem take_error {f : Fault} (h : m.read a = .error f) : take a m = .error f m := by
  simp only [take, Step.bind_of_ok Step.run_get, h, Step.bind_of_error Step.run_liftM_error]

/-! ### Memory that comes later -/

/-- `m'` comes after `m`: regions were added at the top, and the words that were
there before differ at most where `changed` holds of their address. -/
structure Evolves (m : Memory) (changed : Nat → Prop) (m' : Memory) : Prop where
  regions : m.regions <:+ m'.regions
  fresh : ∀ r ∈ m'.regions, r ∈ m.regions ∨ m.next.toNat ≤ r.base.toNat
  next : m.next.toNat ≤ m'.next.toNat
  cells : ∀ b : Word, b.toNat < m.next.toNat → ¬ changed b.toNat → m'.cell? b = m.cell? b
  sound : m.Sound → m'.Sound

variable {changed changed' : Nat → Prop}

theorem Evolves.refl (m : Memory) (changed : Nat → Prop) : m.Evolves changed m where
  regions := List.suffix_refl _
  fresh := fun _ h => Or.inl h
  next := Nat.le_refl _
  cells := fun _ _ _ => rfl
  sound := id

/-- One change after the other; what the second does to fresh words does not count. -/
theorem Evolves.then (h : m.Evolves changed m') (h' : m'.Evolves changed' m'')
    (hc : ∀ n, n < m.next.toNat → changed' n → changed n) : m.Evolves changed m'' where
  regions := h.regions.trans h'.regions
  fresh := by
    intro r hr
    rcases h'.fresh r hr with hr | hr
    · exact h.fresh r hr
    · exact Or.inr (Nat.le_trans h.next hr)
  next := Nat.le_trans h.next h'.next
  cells := by
    intro b hb hn
    rw [h'.cells b (Nat.lt_of_lt_of_le hb h.next) fun hb' => hn (hc _ hb hb'), h.cells b hb hn]
  sound := fun hm => h'.sound (h.sound hm)

theorem Evolves.trans (h : m.Evolves changed m') (h' : m'.Evolves changed m'') :
    m.Evolves changed m'' := h.then h' fun _ _ hn => hn

/-- Changes above what was there do not count. -/
theorem Evolves.mono (h : m.Evolves changed m')
    (hc : ∀ n, n < m.next.toNat → changed n → changed' n) : m.Evolves changed' m' where
  regions := h.regions
  fresh := h.fresh
  next := h.next
  cells := fun b hb hn => h.cells b hb fun hch => hn (hc _ hb hch)
  sound := h.sound

theorem Evolves.owns (h : m.Evolves changed m') (ho : m.Owns base bytes) : m'.Owns base bytes :=
  h.regions.subset ho

theorem Evolves.isMapped_eq (h : m.Evolves changed m') (hm : m.Sound)
    (ha : a.toNat < m.next.toNat) : m'.isMapped a = m.isMapped a := by
  rw [Bool.eq_iff_iff, hm.isMapped_iff, (h.sound hm).isMapped_iff]
  constructor
  · rintro ⟨r, hr, hh⟩
    rcases h.fresh r hr with hr | hr
    · exact ⟨r, hr, hh⟩
    · rw [holds_iff] at hh
      omega
  · rintro ⟨r, hr, hh⟩
    exact ⟨r, h.regions.subset hr, hh⟩

/-- Reading a word that is not among the changed ones gives what it gave before. -/
theorem Evolves.read_eq (h : m.Evolves changed m') (hm : m.Sound)
    (ha : a.toNat < m.next.toNat) (hc : ¬ changed a.toNat) : m'.read a = m.read a := by
  rw [read, read, h.isMapped_eq hm ha, h.cells a ha hc]

theorem Evolves.read_ok (h : m.Evolves changed m') (hm : m.Sound) {v : Word}
    (hv : m.read a = .ok v) (hc : ¬ changed a.toNat) : m'.read a = .ok v := by
  rw [h.read_eq hm (hm.lt_next_of_isMapped (isMapped_of_read hv)) hc, hv]

theorem Evolves.isDrained_eq (h : m.Evolves changed m') (ha : a.toNat < m.next.toNat)
    (hc : ¬ changed a.toNat) : m'.isDrained a = m.isDrained a := by
  rw [isDrained, isDrained, h.cells a ha hc]

theorem evolves_put (h : m.isMapped a = true) (c : Option Word) (hc : changed a.toNat) :
    m.Evolves changed (m.put a c) where
  regions := List.suffix_refl _
  fresh := fun _ h => Or.inl h
  next := Nat.le_refl _
  cells := by
    intro b _ hb
    rw [cell?_put, if_neg]
    rintro rfl
    exact hb hc
  sound := fun hm => hm.put h c

/-- However it ends, a write changes at most the word at its address. -/
theorem ends_write (v : Word) (hc : changed a.toNat) :
    Step.Ends (write a v) m (fun _ m' => m.Evolves changed m') fun _ m' => m.Evolves changed m' := by
  cases h : m.isMapped a with
  | true => exact Step.ends_of_ok (write_ok h v) (evolves_put h _ hc)
  | false => exact Step.ends_of_error (write_error h v) (.refl m changed)

/-- However it ends, taking changes at most the word at its address. -/
theorem ends_take (hc : changed a.toNat) :
    Step.Ends (take a) m (fun _ m' => m.Evolves changed m') fun _ m' => m.Evolves changed m' := by
  cases h : m.read a with
  | ok v => exact Step.ends_of_ok (take_ok h) (evolves_put (isMapped_of_read h) _ hc)
  | error f => exact Step.ends_of_error (take_error h) (.refl m changed)

/-! ### Allocation -/

/-- Memory with one region more. -/
def allocated (m : Memory) (bytes : Nat) : Memory :=
  { m with
    regions := ⟨m.next, bytes⟩ :: m.regions
    next := m.next.plus (Region.extent bytes + Region.gapBytes) }

theorem advance_ok (h : base.toNat + bytes < 2 ^ 64) :
    advance base bytes = .ok (base.plus bytes) := by
  rw [advance, if_pos (show _ < UInt64.size from h), Attempt.fits]
  rfl

theorem advance_error (h : ¬ base.toNat + bytes < 2 ^ 64) :
    advance base bytes = .error (.trap (.overflow .add)) := by
  rw [advance, if_neg (show ¬ _ < UInt64.size from h), Attempt.fits]

theorem alloc_ok (h : m.next.toNat + Region.extent bytes + Region.gapBytes < 2 ^ 64) :
    alloc bytes m = .ok m.next (m.allocated bytes) := by
  have h1 : advance m.next (Region.extent bytes) = .ok (m.next.plus (Region.extent bytes)) :=
    advance_ok (by omega)
  have h2 : advance (m.next.plus (Region.extent bytes)) Region.gapBytes
      = .ok ((m.next.plus (Region.extent bytes)).plus Region.gapBytes) :=
    advance_ok (by rw [Word.toNat_plus (by omega)]; omega)
  rw [plus_plus] at h2
  simp only [alloc, Step.bind_of_ok Step.run_get, h1, Step.bind_of_ok Step.run_liftM_ok, h2,
    Step.bind_of_ok Step.run_set, Step.run_pure, allocated]

theorem alloc_error (h : ¬ m.next.toNat + Region.extent bytes + Region.gapBytes < 2 ^ 64) :
    alloc bytes m = .error (.trap (.overflow .add)) m := by
  by_cases h1 : m.next.toNat + Region.extent bytes < 2 ^ 64
  · have h2 : advance (m.next.plus (Region.extent bytes)) Region.gapBytes
        = .error (.trap (.overflow .add)) :=
      advance_error (by rw [Word.toNat_plus h1]; exact h)
    simp only [alloc, Step.bind_of_ok Step.run_get, advance_ok h1,
      Step.bind_of_ok Step.run_liftM_ok, h2, Step.bind_of_error Step.run_liftM_error]
  · simp only [alloc, Step.bind_of_ok Step.run_get, advance_error h1,
      Step.bind_of_error Step.run_liftM_error]

/-- Allocation fails only at the end of the address space, and then changes nothing. -/
theorem alloc_error_or_ok (hb : bytes < Size.limit) :
    (∃ f, alloc bytes m = .error f m ∧ 2 ^ 63 < m.next.toNat) ∨
      (m.next.toNat + Region.extent bytes + Region.gapBytes < 2 ^ 64 ∧
        alloc bytes m = .ok m.next (m.allocated bytes)) := by
  by_cases h : m.next.toNat + Region.extent bytes + Region.gapBytes < 2 ^ 64
  · exact Or.inr ⟨h, alloc_ok h⟩
  · have he := extent_lt hb
    have hgap : Region.gapBytes = 16 := rfl
    exact Or.inl ⟨_, alloc_error h, by omega⟩

theorem owns_allocated (m : Memory) (bytes : Nat) : (m.allocated bytes).Owns m.next bytes :=
  List.mem_cons_self

theorem next_allocated (h : m.next.toNat + Region.extent bytes + Region.gapBytes < 2 ^ 64) :
    (m.allocated bytes).next.toNat
      = m.next.toNat + Region.extent bytes + Region.gapBytes := by
  rw [allocated, Word.toNat_plus (by omega)]
  omega

theorem evolves_allocated (h : m.next.toNat + Region.extent bytes + Region.gapBytes < 2 ^ 64) :
    m.Evolves changed (m.allocated bytes) where
  regions := List.suffix_cons _ _
  fresh := by
    intro r hr
    rcases List.mem_cons.mp hr with rfl | hr
    · exact Or.inr (Nat.le_refl _)
    · exact Or.inl hr
  next := by rw [next_allocated h]; omega
  cells := fun _ _ _ => rfl
  sound := by
    intro hm
    have hn := next_allocated h
    refine ⟨by rw [hn]; have := hm.start; omega, ?_, ?_, ?_, ?_⟩
    · intro r hr
      rcases List.mem_cons.mp hr with rfl | hr
      · exact hm.start
      · exact hm.low r hr
    · exact List.pairwise_cons.mpr ⟨fun r hr => hm.high r hr, hm.ordered⟩
    · intro r hr
      rw [hn]
      rcases List.mem_cons.mp hr with rfl | hr
      · exact Nat.le_refl _
      · have := hm.high r hr
        omega
    · intro c hc
      have := hm.written c hc
      rw [hn]
      omega

/-- Nothing was written above all regions. -/
theorem Sound.cell?_eq_none (hm : m.Sound) (ha : m.next.toNat ≤ a.toNat) : m.cell? a = none := by
  rw [cell?, Option.map_eq_none_iff, List.find?_eq_none]
  intro c hc heq
  have hlt := hm.written c hc
  rw [beq_iff_eq] at heq
  rw [heq] at hlt
  omega

/-- A fresh region is all zero. -/
theorem read_allocated (hm : m.Sound)
    (h : m.next.toNat + Region.extent bytes + Region.gapBytes < 2 ^ 64) {off : Nat}
    (hoff : off < max bytes 1) : (m.allocated bytes).read (m.next.plus off) = .ok 0 := by
  have hev : m.Evolves (fun _ => False) (m.allocated bytes) := evolves_allocated h
  have hs := hev.sound hm
  have ho := owns_allocated m bytes
  have hcell : (m.allocated bytes).cell? (m.next.plus off) = none :=
    hm.cell?_eq_none (by rw [ho.toNat_plus hs hoff]; omega)
  rw [read, ho.isMapped hs hoff, hcell]
  rfl

theorem bytesOfWords_eq {words : Nat} (h : words * 8 < Size.limit) :
    bytesOfWords words = .ok (words * 8) := by
  have h1 : words % Size.limit = words := Nat.mod_eq_of_lt (by omega)
  have h2 : Size.mul? (words % Size.limit) wordBytes = some (words * 8) := by
    rw [Size.mul?_eq_some_iff, h1]
    exact ⟨rfl, h⟩
  rw [bytesOfWords, mulSize, h2, Attempt.fits]

theorem allocWords_eq {words : Nat} (h : words * 8 < Size.limit) :
    allocWords words = alloc (words * 8) := by
  funext m
  simp only [allocWords, bytesOfWords_eq h, Step.bind_of_ok Step.run_liftM_ok]

end Memory

end Dispatch
