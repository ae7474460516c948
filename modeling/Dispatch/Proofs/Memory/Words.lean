import Dispatch.Proofs.Memory

/-!
# Several words of memory

Consecutive words are described one by one: reading gives a list exactly when each of
its words can be read.  Storing and moving then reduce to what happens to each word.

## Main definitions

* `Memory.Within base start count` — the addresses of `count` words from index `start`.
* `Memory.Holds base start words` — the words from index `start` on are `words`.

## Main results

* `Memory.readFrom_eq_ok_iff` — reading several words is reading each.
* `Memory.writeFrom_ok`, `Memory.takeFrom_ok` — what storing and moving do.
* `Memory.ends_writeFrom`, `Memory.ends_takeFrom` — what they leave alone, however they
  end.
* `Memory.Holds.splice` — storing over a part of what memory holds.
-/

namespace Dispatch

namespace Memory

open Word

variable {m m' : Memory} {base : Word} {start count : Nat} {words : List Word}
  {changed : Nat → Prop}

/-- The addresses of `count` words, the first of which has the index `start`. -/
def Within (base : Word) (start count : Nat) (a : Nat) : Prop :=
  base.toNat + 8 * start ≤ a ∧ a < base.toNat + 8 * (start + count)

/-! ### Reading -/

/-- Reading several words is reading each of them. -/
theorem readFrom_eq_ok_iff (hb : base.toNat + 8 * (start + count) ≤ 2 ^ 64) :
    m.readFrom base start count = .ok words ↔
      words.length = count ∧
        ∀ k v, words[k]? = some v → m.read (base.plus (8 * (start + k))) = .ok v := by
  induction count generalizing start words with
  | zero =>
    simp only [readFrom, List.length_eq_zero_iff]
    constructor
    · intro h
      cases h
      simp
    · rintro ⟨rfl, -⟩
      rfl
  | succ count ih =>
    have hw : wordAddress base start = .ok (base.plus (8 * start)) := wordAddress_eq (by omega)
    simp only [readFrom, hw, bind, Except.bind]
    cases hr : m.read (base.plus (8 * start)) with
    | error f =>
      simp only [reduceCtorEq, false_iff, not_and]
      intro hlen hall
      obtain ⟨v, rest, rfl⟩ := List.exists_cons_of_length_eq_add_one hlen
      have := hall 0 v (by simp)
      rw [Nat.add_zero, hr] at this
      cases this
    | ok v =>
      simp only
      cases hrest : m.readFrom base (start + 1) count with
      | error f =>
        simp only [reduceCtorEq, false_iff, not_and]
        intro hlen hall
        obtain ⟨v', rest, rfl⟩ := List.exists_cons_of_length_eq_add_one hlen
        have hno : m.readFrom base (start + 1) count = .ok rest :=
          (ih (by omega)).mpr ⟨by simpa using hlen, fun k u hk => by
            have := hall (k + 1) u (by simpa using hk)
            rwa [show start + (k + 1) = start + 1 + k by omega] at this⟩
        rw [hno] at hrest
        cases hrest
      | ok rest =>
        have hok := (ih (by omega)).mp hrest
        simp only [pure, Except.pure, Except.ok.injEq]
        constructor
        · rintro rfl
          refine ⟨by simp [hok.1], ?_⟩
          intro k u hk
          cases k with
          | zero =>
            simp only [List.getElem?_cons_zero, Option.some.injEq] at hk
            rw [Nat.add_zero, hr, hk]
          | succ k =>
            rw [show start + (k + 1) = start + 1 + k by omega]
            exact hok.2 k u (by simpa using hk)
        · rintro ⟨hlen, hall⟩
          obtain ⟨v', rest', rfl⟩ := List.exists_cons_of_length_eq_add_one hlen
          have h0 := hall 0 v' (by simp)
          rw [Nat.add_zero, hr, Except.ok.injEq] at h0
          have hrest' : m.readFrom base (start + 1) count = .ok rest' :=
            (ih (by omega)).mpr ⟨by simpa using hlen, fun k u hk => by
              have := hall (k + 1) u (by simpa using hk)
              rwa [show start + (k + 1) = start + 1 + k by omega] at this⟩
          rw [hrest', Except.ok.injEq] at hrest
          rw [h0, hrest]

theorem readWords_eq_ok_iff (hb : base.toNat + 8 * count ≤ 2 ^ 64) :
    m.readWords base count = .ok words ↔
      words.length = count ∧
        ∀ k v, words[k]? = some v → m.read (base.plus (8 * k)) = .ok v := by
  rw [readWords, readFrom_eq_ok_iff (by omega)]
  simp only [Nat.zero_add]

/-! ### Storing -/

/-- Storing words that are all mapped: they can be read back, and no other word
changes. -/
theorem writeFrom_ok (hm : m.Sound) (hb : base.toNat + 8 * (start + words.length) ≤ 2 ^ 64)
    (hmap : ∀ k, k < words.length → m.isMapped (base.plus (8 * (start + k))) = true) :
    ∃ m', writeFrom base start words m = .ok () m' ∧
      m.Evolves (Within base start words.length) m' ∧
      m'.readFrom base start words.length = .ok words ∧
      m'.regions = m.regions ∧ m'.next = m.next := by
  induction words generalizing start m with
  | nil => exact ⟨m, rfl, .refl _ _, rfl, rfl, rfl⟩
  | cons v rest ih =>
    simp only [List.length_cons] at hb hmap
    have hw : wordAddress base start = .ok (base.plus (8 * start)) := wordAddress_eq (by omega)
    have h0 := hmap 0 (by omega)
    rw [Nat.add_zero] at h0
    have hn0 : (base.plus (8 * start)).toNat = base.toNat + 8 * start :=
      Word.toNat_plus (by omega)
    obtain ⟨m', hrun, hev, hread, hreg, hnext⟩ := ih
      (m := m.put (base.plus (8 * start)) (some v)) (hm.put h0 _)
      (show base.toNat + 8 * (start + 1 + rest.length) ≤ 2 ^ 64 by omega) (by
        intro k hk
        rw [put_isMapped, show start + 1 + k = start + (k + 1) by omega]
        exact hmap (k + 1) (by omega))
    refine ⟨m', ?_, ?_, ?_, hreg, hnext⟩
    · simp only [writeFrom, hw, Step.bind_of_ok Step.run_liftM_ok,
        Step.bind_of_ok (write_ok h0 v), hrun]
    · refine (evolves_put h0 _ ?_).trans (hev.mono ?_)
      · rw [hn0]
        exact ⟨by omega, by simp only [List.length_cons]; omega⟩
      · rintro n - ⟨h1, h2⟩
        exact ⟨by omega, by simp only [List.length_cons]; omega⟩
    · rw [readFrom_eq_ok_iff (by simp only [List.length_cons]; omega)]
      rw [readFrom_eq_ok_iff (by omega)] at hread
      refine ⟨rfl, fun k u hk => ?_⟩
      cases k with
      | zero =>
        -- the first word was stored before the others, none of which is at its address
        simp only [List.getElem?_cons_zero, Option.some.injEq] at hk
        subst hk
        rw [Nat.add_zero]
        refine hev.read_ok (hm.put h0 _) (read_put_self h0 v) ?_
        rw [hn0]
        rintro ⟨h1, -⟩
        omega
      | succ k =>
        rw [show start + (k + 1) = start + 1 + k by omega]
        exact hread.2 k u (by simpa using hk)

/-- Storing words in a region of at least their size. -/
theorem writeWords_ok (hm : m.Sound) {bytes off : Nat} (ho : m.Owns base bytes)
    (hoff : off + 8 * words.length ≤ bytes) :
    ∃ m', writeWords (base.plus off) words m = .ok () m' ∧
      m.Evolves (Within (base.plus off) 0 words.length) m' ∧
      m'.readWords (base.plus off) words.length = .ok words ∧
      m'.regions = m.regions ∧ m'.next = m.next := by
  have hlt := ho.lt_next hm
  have hn := m.next.toNat_lt
  have hbase : (base.plus off).toNat = base.toNat + off := Word.toNat_plus (by omega)
  refine writeFrom_ok hm (by omega) ?_
  intro k hk
  rw [plus_plus, Nat.zero_add]
  exact ho.isMapped hm (by omega)

/-- However it ends, storing changes no word below its base. -/
theorem ends_writeFrom (hc : ∀ n, base.toNat ≤ n → changed n) :
    Step.Ends (writeFrom base start words) m (fun _ m' => m.Evolves changed m')
      fun _ m' => m.Evolves changed m' := by
  induction words generalizing start m with
  | nil => exact .refl m changed
  | cons v rest ih =>
    rw [writeFrom, Step.ends_bind, Step.ends_liftM]
    refine ⟨fun a ha => ?_, fun _ _ => .refl m changed⟩
    rw [Step.ends_bind]
    refine (ends_write v (hc _ (le_of_wordAddress ha))).imp (fun _ m₁ h₁ => ?_) fun _ _ h => h
    exact ih.imp (fun _ _ h => h₁.trans h) fun _ _ h => h₁.trans h

/-! ### Moving -/

/-- Moving words that can be read: they come out, they are drained, and no other word
changes. -/
theorem takeFrom_ok (hm : m.Sound) (hb : base.toNat + 8 * (start + count) ≤ 2 ^ 64)
    (hr : m.readFrom base start count = .ok words) :
    ∃ m', takeFrom base start count m = .ok words m' ∧
      m.Evolves (Within base start count) m' ∧
      (∀ k, k < count → m'.isDrained (base.plus (8 * (start + k))) = true) ∧
      m'.regions = m.regions ∧ m'.next = m.next := by
  induction count generalizing start m words with
  | zero =>
    cases hr
    exact ⟨m, rfl, .refl _ _, by simp, rfl, rfl⟩
  | succ count ih =>
    rw [readFrom_eq_ok_iff (by omega)] at hr
    obtain ⟨v, rest, rfl⟩ := List.exists_cons_of_length_eq_add_one hr.1
    have hw : wordAddress base start = .ok (base.plus (8 * start)) := wordAddress_eq (by omega)
    have hn0 : (base.plus (8 * start)).toNat = base.toNat + 8 * start :=
      Word.toNat_plus (by omega)
    have h0 := hr.2 0 v (by simp)
    rw [Nat.add_zero] at h0
    have hmap := isMapped_of_read h0
    have hlt := hm.lt_next_of_isMapped hmap
    have hrest : (m.put (base.plus (8 * start)) none).readFrom base (start + 1) count
        = .ok rest := by
      rw [readFrom_eq_ok_iff (by omega)]
      refine ⟨by simpa using hr.1, fun k u hk => ?_⟩
      have hk' : k < rest.length := (List.getElem?_eq_some_iff.mp hk).1
      have hlen : rest.length = count := by simpa using hr.1
      rw [read_put_of_ne, show start + 1 + k = start + (k + 1) by omega]
      · exact hr.2 (k + 1) u (by simpa using hk)
      · intro heq
        have := congrArg UInt64.toNat heq
        rw [hn0, Word.toNat_plus (by omega)] at this
        omega
    obtain ⟨m', hrun, hev, hdr, hreg, hnext⟩ := ih (hm.put hmap none) (by omega) hrest
    refine ⟨m', ?_, ?_, ?_, hreg, hnext⟩
    · simp only [takeFrom, hw, Step.bind_of_ok Step.run_liftM_ok,
        Step.bind_of_ok (take_ok h0), Step.bind_of_ok hrun, Step.run_pure]
    · refine (evolves_put hmap _ ?_).trans (hev.mono ?_)
      · rw [hn0]
        exact ⟨by omega, by omega⟩
      · rintro n - ⟨h1, h2⟩
        exact ⟨by omega, by omega⟩
    · intro k hk
      cases k with
      | zero =>
        rw [Nat.add_zero, hev.isDrained_eq hlt]
        · exact isDrained_put_self m _
        · rw [hn0]
          rintro ⟨h1, -⟩
          omega
      | succ k =>
        rw [show start + (k + 1) = start + 1 + k by omega]
        exact hdr k (by omega)

theorem takeWords_ok (hm : m.Sound) (hb : base.toNat + 8 * count ≤ 2 ^ 64)
    (hr : m.readWords base count = .ok words) :
    ∃ m', takeWords base count m = .ok words m' ∧ m.Evolves (Within base 0 count) m' ∧
      (∀ k, k < count → m'.isDrained (base.plus (8 * k)) = true) ∧
      m'.regions = m.regions ∧ m'.next = m.next := by
  have h := takeFrom_ok hm (by omega) hr
  simpa only [Nat.zero_add, takeWords] using h

/-- However it ends, moving changes no word below its base; what comes out has the
right length. -/
theorem ends_takeFrom (hc : ∀ n, base.toNat ≤ n → changed n) :
    Step.Ends (takeFrom base start count) m
      (fun words m' => words.length = count ∧ m.Evolves changed m')
      fun _ m' => m.Evolves changed m' := by
  induction count generalizing start m with
  | zero => exact ⟨rfl, .refl m changed⟩
  | succ count ih =>
    rw [takeFrom, Step.ends_bind, Step.ends_liftM]
    refine ⟨fun a ha => ?_, fun _ _ => .refl m changed⟩
    rw [Step.ends_bind]
    refine (ends_take (hc _ (le_of_wordAddress ha))).imp (fun v m₁ h₁ => ?_) fun _ _ h => h
    rw [Step.ends_bind]
    refine ih.imp (fun ws m₂ h₂ => ?_) fun _ _ h => h₁.trans h
    exact ⟨by simp [h₂.1], h₁.trans h₂.2⟩

/-! ### What memory holds -/

/-- The words from index `start` on, counting from `base`, can be read and are these. -/
structure Holds (m : Memory) (base : Word) (start : Nat) (words : List Word) : Prop where
  room : base.toNat + 8 * (start + words.length) ≤ 2 ^ 64
  reads : ∀ k v, words[k]? = some v → m.read (base.plus (8 * (start + k))) = .ok v

theorem holds_iff_readFrom (hb : base.toNat + 8 * (start + words.length) ≤ 2 ^ 64) :
    m.Holds base start words ↔ m.readFrom base start words.length = .ok words := by
  rw [readFrom_eq_ok_iff hb]
  exact ⟨fun h => ⟨rfl, h.reads⟩, fun h => ⟨hb, h.2⟩⟩

theorem Holds.readFrom (h : m.Holds base start words) (hc : words.length = count) :
    m.readFrom base start count = .ok words := by
  subst hc
  exact (holds_iff_readFrom h.room).mp h

theorem Holds.readWords (h : m.Holds base 0 words) (hc : words.length = count) :
    m.readWords base count = .ok words := h.readFrom hc

theorem Holds.read {v : Word} (h : m.Holds base start [v]) :
    m.read (base.plus (8 * start)) = .ok v := h.reads 0 v rfl

theorem holds_append {words' : List Word} :
    m.Holds base start (words ++ words') ↔
      m.Holds base start words ∧ m.Holds base (start + words.length) words' := by
  constructor
  · rintro ⟨hroom, hreads⟩
    rw [List.length_append] at hroom
    refine ⟨⟨by omega, fun k v hk => hreads k v ?_⟩, ⟨by omega, fun k v hk => ?_⟩⟩
    · rw [List.getElem?_append_left (List.getElem?_eq_some_iff.mp hk).1, hk]
    · rw [show start + words.length + k = start + (words.length + k) by omega]
      refine hreads _ v ?_
      rw [List.getElem?_append_right (by omega), show words.length + k - words.length = k by omega,
        hk]
  · rintro ⟨⟨hroom, hreads⟩, ⟨hroom', hreads'⟩⟩
    refine ⟨by rw [List.length_append]; omega, fun k v hk => ?_⟩
    rcases Nat.lt_or_ge k words.length with hlt | hge
    · rw [List.getElem?_append_left hlt] at hk
      exact hreads k v hk
    · rw [List.getElem?_append_right hge] at hk
      have := hreads' _ v hk
      rwa [show start + words.length + (k - words.length) = start + k by omega] at this

/-- A part of what memory holds. -/
theorem Holds.part {a b c : List Word} (h : m.Holds base start (a ++ b ++ c)) :
    m.Holds base (start + a.length) b := by
  rw [List.append_assoc, holds_append, holds_append] at h
  exact h.2.1

theorem Evolves.holds (h : m.Evolves changed m') (hm : m.Sound) (hw : m.Holds base start words)
    (hc : ∀ a, Within base start words.length a → ¬ changed a) : m'.Holds base start words := by
  refine ⟨hw.room, fun k v hk => h.read_ok hm (hw.reads k v hk) (hc _ ?_)⟩
  have hlt := (List.getElem?_eq_some_iff.mp hk).1
  have hroom := hw.room
  rw [Word.toNat_plus (by omega)]
  constructor <;> omega

/-- A fresh region holds zeros. -/
theorem holds_allocated (hm : m.Sound) {bytes : Nat} (hroom : 8 * (start + count) ≤ bytes)
    (h : m.next.toNat + Region.extent bytes + Region.gapBytes < 2 ^ 64) :
    (m.allocated bytes).Holds m.next start (List.replicate count 0) := by
  have he := le_extent bytes
  refine ⟨by rw [List.length_replicate]; omega, fun k v hk => ?_⟩
  rw [List.getElem?_replicate] at hk
  split at hk
  · cases hk
    exact read_allocated hm h (by omega)
  · cases hk

/-- Storing over a part of what memory holds: the rest stays. -/
theorem Holds.splice {a b c b' : List Word} (hm : m.Sound) (h : m.Holds base start (a ++ b ++ c))
    (hb : b'.length = b.length) :
    ∃ m', writeFrom base (start + a.length) b' m = .ok () m' ∧
      m.Evolves (Within base (start + a.length) b'.length) m' ∧
      m'.Holds base start (a ++ b' ++ c) ∧ m'.regions = m.regions ∧ m'.next = m.next := by
  have hroom := h.room
  simp only [List.length_append] at hroom
  have hpart := h.part
  obtain ⟨m', hrun, hev, hread, hreg, hnext⟩ := writeFrom_ok hm
    (show base.toNat + 8 * (start + a.length + b'.length) ≤ 2 ^ 64 by omega) (by
      intro k hk
      obtain ⟨v, hv⟩ : ∃ v, b[k]? = some v := ⟨_, List.getElem?_eq_getElem (by omega)⟩
      exact isMapped_of_read (hpart.reads k v hv))
  refine ⟨m', hrun, hev, ?_, hreg, hnext⟩
  rw [List.append_assoc, holds_append, holds_append] at h ⊢
  refine ⟨hev.holds hm h.1 ?_, (holds_iff_readFrom (by omega)).mpr hread, ?_⟩
  · rintro n ⟨h1, h2⟩ ⟨h3, h4⟩
    omega
  · rw [hb]
    refine hev.holds hm h.2.2 ?_
    rintro n ⟨h1, h2⟩ ⟨h3, h4⟩
    omega

/-! ### Other ways to name words -/

theorem wordAddress_plus {base : Word} {start index : Nat}
    (h : base.toNat + 8 * (start + index) < 2 ^ 64) :
    wordAddress (base.plus (8 * start)) index = wordAddress base (start + index) := by
  have hbase : (base.plus (8 * start)).toNat = base.toNat + 8 * start :=
    Word.toNat_plus (by omega)
  rw [wordAddress_eq (by omega), wordAddress_eq h, plus_plus, Nat.mul_add]

/-- Counting from a later base. -/
theorem writeFrom_plus (h : base.toNat + 8 * (start + count + words.length) ≤ 2 ^ 64) :
    writeFrom (base.plus (8 * start)) count words = writeFrom base (start + count) words := by
  induction words generalizing count with
  | nil => rfl
  | cons v rest ih =>
    rw [List.length_cons] at h
    rw [writeFrom, writeFrom, wordAddress_plus (by omega), ih (by omega), Nat.add_assoc]

theorem writeWords_plus (h : base.toNat + 8 * (start + words.length) ≤ 2 ^ 64) :
    writeWords (base.plus (8 * start)) words = writeFrom base start words :=
  @writeFrom_plus base start 0 words h

theorem Holds.readWords_plus (h : m.Holds base start words) (hc : words.length = count) :
    m.readWords (base.plus (8 * start)) count = .ok words := by
  have hroom := h.room
  rcases words with - | ⟨v, rest⟩
  · subst hc
    rfl
  · rw [List.length_cons] at hroom
    have hbase : (base.plus (8 * start)).toNat = base.toNat + 8 * start :=
      Word.toNat_plus (by omega)
    rw [readWords_eq_ok_iff (by rw [← hc, List.length_cons]; omega)]
    refine ⟨hc, fun k u hk => ?_⟩
    rw [plus_plus, ← Nat.mul_add]
    exact h.reads k u hk

end Memory

end Dispatch
