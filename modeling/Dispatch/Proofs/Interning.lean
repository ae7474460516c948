import Mathlib.Data.Set.Card
import Mathlib.Algebra.BigOperators.Fin
import Mathlib.Algebra.Order.BigOperators.Group.Finset
import Dispatch.Interner
import Dispatch.Proofs.Step

/-!
# Names are canonical

Strings are interned one after the other.  A string has one name, whenever it is asked
for, and no other string has it; a name that was given once leads to its string for ever.
Strings only ever arrive at the end of their shard, so a place never changes hands, and
the index of a shard is the inverse of its list, so a string never gets a second place.

## Main definitions

* `Shard.Indexed` — the index of a shard is the inverse of its list of strings.
* `Interner.Sound` — what holds at all times; `Interner.Later` — how an interner grows.
* `Interner.Holds`, `Interner.Stores` — a string is there, and its name is its place.
* `Interner.Answers`, `Interner.Refuses` — everything that one call can do.
* `Interner.after`, `Interner.Gives` — calls, one after the other, and the names they give.
* `Interner.demand` — how many strings a shard is asked to hold.

## Main results

* `Interner.Sound.ends_intern` — one call.
* `Interner.Sound.after`, `Interner.Sound.holds_after` — any number of them.
* `Interner.canonical` — what the names promise at every point of a run.
-/

namespace Dispatch

/-! ### Shards -/

namespace Shard

variable {shard : Shard} {s s' : String} {k k' : Nat}

/-- The index leads from a string to its place, and to nothing but places of strings. -/
def Indexed (shard : Shard) : Prop :=
  ∀ s k, shard.positions.get? s = some k ↔ shard.strings[k]? = some s

theorem indexed_empty : Indexed {} := by
  intro s k
  rw [List.getElem?_nil]
  exact iff_of_false nofun nofun

/-- A string has one place only. -/
theorem Indexed.place_inj (h : shard.Indexed) (hk : shard.strings[k]? = some s)
    (hk' : shard.strings[k']? = some s) : k = k' := by
  rw [← h] at hk hk'
  exact Option.some.inj (hk.symm.trans hk')

theorem Indexed.nodup (h : shard.Indexed) : shard.strings.Nodup := by
  rw [List.nodup_iff_getElem?_ne_getElem?]
  intro k k' hlt hk' heq
  have hplace : shard.strings[k']? = some shard.strings[k'] := List.getElem?_eq_getElem hk'
  exact hlt.ne (h.place_inj (heq.trans hplace) hplace)

/-- The index tells which strings are there. -/
theorem Indexed.get?_eq_none (h : shard.Indexed) :
    shard.positions.get? s = none ↔ s ∉ shard.strings := by
  rw [Option.eq_none_iff_forall_ne_some, List.mem_iff_getElem?, not_exists]
  exact forall_congr' fun k => not_congr (h s k)

/-- A new string goes to the end, where the index looks for it. -/
theorem Indexed.add (h : shard.Indexed) (hs : shard.positions.get? s = none) :
    (shard.add s).Indexed := by
  intro s' k
  show (shard.positions.insert s shard.strings.length).get? s' = some k ↔
    (shard.strings ++ [s])[k]? = some s'
  rw [Table.get?_insert]
  by_cases hss : s = s'
  · subst hss
    rw [if_pos rfl, Option.some.injEq]
    constructor
    · rintro rfl
      exact List.getElem?_concat_length
    · intro hk
      rcases Nat.lt_or_ge k shard.strings.length with hlt | hge
      · -- the index knows all older places, and it does not know the string
        rw [List.getElem?_append_left hlt, ← h, hs] at hk
        cases hk
      · have hend := (List.getElem?_eq_some_iff.mp hk).1
        rw [List.length_append, List.length_singleton] at hend
        omega
  · rw [if_neg hss, h]
    rcases Nat.lt_or_ge k shard.strings.length with hlt | hge
    · rw [List.getElem?_append_left hlt]
    · rw [List.getElem?_append_right hge, List.getElem?_eq_none hge, List.getElem?_singleton]
      simp [hss]

end Shard

namespace Interner

open Name (indexLimit pack)

variable {t t' t'' : Interner} {s s' : String} {n n' : Name} {i : Fin 16} {k : Nat}
  {asked before rest : List String}

/-! ### What holds at all times -/

/-- The strings of a shard, in order of arrival. -/
def strings (t : Interner) (i : Fin 16) : List String := t.shards[i].strings

/-- What holds of an interner whatever it was asked for. -/
structure Sound (t : Interner) : Prop where
  indexed : ∀ i : Fin 16, t.shards[i].Indexed
  /-- A string is in the shard that its first bytes choose. -/
  home : ∀ i, ∀ s ∈ t.strings i, shardOf s = i
  fits : ∀ i, (t.strings i).length ≤ indexLimit
  /-- The counter keeps up with the shards. -/
  counted : t.size = ∑ i, (t.strings i).length

/-- The string has been interned. -/
def Holds (t : Interner) (s : String) : Prop := s ∈ t.strings (shardOf s)

/-- The string is at the place that the name says. -/
def Stores (t : Interner) (s : String) (n : Name) : Prop :=
  ∃ k, (t.strings (shardOf s))[k]? = some s ∧ n = pack (shardOf s) k

/-- There may be more strings at the end of a shard, but those that were there stay. -/
def Later (t t' : Interner) : Prop := ∀ i, t.strings i <+: t'.strings i

theorem Later.refl (t : Interner) : t.Later t := fun _ => List.prefix_refl _

theorem Later.trans (h : t.Later t') (h' : t'.Later t'') : t.Later t'' :=
  fun i => (h i).trans (h' i)

/-- What has a place keeps it. -/
theorem Stores.later (hs : t.Stores s n) (h : t.Later t') : t'.Stores s n := by
  obtain ⟨k, hk, rfl⟩ := hs
  obtain ⟨more, hmore⟩ := h (shardOf s)
  refine ⟨k, ?_, rfl⟩
  rw [← hmore, List.getElem?_append_left (List.getElem?_eq_some_iff.mp hk).1]
  exact hk

theorem Sound.find?_eq_some (ht : t.Sound) :
    t.find? s = some k ↔ (t.strings (shardOf s))[k]? = some s :=
  ht.indexed (shardOf s) s k

theorem Sound.find?_eq_none (ht : t.Sound) : t.find? s = none ↔ ¬ t.Holds s :=
  (ht.indexed (shardOf s)).get?_eq_none

/-- Places fit into a name. -/
theorem Sound.place_lt (ht : t.Sound) (hk : (t.strings i)[k]? = some s) : k < indexLimit :=
  Nat.lt_of_lt_of_le (List.getElem?_eq_some_iff.mp hk).1 (ht.fits i)

/-- A name says which shard and which place, and there is one string at each place. -/
theorem Sound.stores_inj (ht : t.Sound) (hs : t.Stores s n) (hs' : t.Stores s' n') :
    n = n' ↔ s = s' := by
  obtain ⟨k, hk, rfl⟩ := hs
  obtain ⟨k', hk', rfl⟩ := hs'
  have hlt := ht.place_lt hk
  have hlt' := ht.place_lt hk'
  constructor
  · intro heq
    -- equal names have equal parts, so both strings are at the same place
    have hshard := congrArg Name.shard heq
    have hindex := congrArg Name.index heq
    rw [Name.shard_pack hlt, Name.shard_pack hlt'] at hshard
    rw [Name.index_pack hlt, Name.index_pack hlt'] at hindex
    rw [Fin.ext hshard, hindex, hk'] at hk
    exact (Option.some.inj hk).symm
  · rintro rfl
    have hplace := (ht.indexed (shardOf s)).place_inj hk hk'
    rw [hplace]

theorem Sound.shard_eq (ht : t.Sound) (hs : t.Stores s n) : n.shard = shardOf s := by
  obtain ⟨k, hk, rfl⟩ := hs
  exact Name.shard_pack (ht.place_lt hk)

theorem Sound.getElem?_index (ht : t.Sound) (hs : t.Stores s n) :
    (t.strings (shardOf s))[n.index]? = some s := by
  obtain ⟨k, hk, rfl⟩ := hs
  rw [Name.index_pack (ht.place_lt hk)]
  exact hk

theorem Sound.raw_lt (ht : t.Sound) (hs : t.Stores s n) : n.raw < UInt32.size := by
  obtain ⟨k, hk, rfl⟩ := hs
  exact Name.raw_pack_lt (shardOf s).isLt (ht.place_lt hk)

theorem Sound.lookup_eq_ok (ht : t.Sound) (hs : t.Stores s n) : t.lookup n = .ok s := by
  have hshard : t.shards[n.shard]? = some t.shards[shardOf s] := by
    rw [ht.shard_eq hs]
    exact Vector.getElem?_eq_getElem (shardOf s).isLt
  have hplace : t.shards[shardOf s].strings[n.index]? = some s := ht.getElem?_index hs
  rw [lookup, hshard, Option.bind_some, hplace]

/-! ### The counter -/

/-- The number of strings is far below the bound of the counter. -/
theorem Sound.size_le (ht : t.Sound) : t.size ≤ 16 * indexLimit := by
  rw [ht.counted]
  exact Finset.sum_le_card_nsmul _ _ _ fun i _ => ht.fits i

/-- The shards have no string in common, so the counter counts different strings. -/
theorem Sound.size_eq (ht : t.Sound) : t.size = {s | t.Holds s}.ncard := by
  have hset : {s | t.Holds s} = ↑(Finset.univ.biUnion fun i => (t.strings i).toFinset) := by
    ext s
    simp only [Set.mem_ofPred_eq, Finset.coe_biUnion, Set.mem_iUnion, List.coe_toFinset]
    constructor
    · intro hs
      exact ⟨shardOf s, Finset.mem_coe.mpr (Finset.mem_univ _), hs⟩
    · rintro ⟨i, -, hs⟩
      obtain rfl := ht.home i s hs
      exact hs
  have hapart : ((Finset.univ : Finset (Fin 16)) : Set (Fin 16)).PairwiseDisjoint
      fun i => (t.strings i).toFinset := by
    intro i _ j _ hij
    refine Finset.disjoint_left.mpr fun s hi hj => hij ?_
    rw [← ht.home i s (List.mem_toFinset.mp hi), ← ht.home j s (List.mem_toFinset.mp hj)]
  rw [hset, Set.ncard_coe_finset, Finset.card_biUnion hapart, ht.counted]
  exact Finset.sum_congr rfl fun i _ => (List.toFinset_card_of_nodup (ht.indexed i).nodup).symm

/-! ### Adding a string -/

theorem shards_add (t : Interner) (s : String) (i : Fin 16) :
    (t.add s).shards[i] = if shardOf s = i then t.shards[i].add s else t.shards[i] := by
  show (t.shards.set (shardOf s) (t.shards[shardOf s].add s))[i.val] = _
  rw [Vector.getElem_set]
  by_cases h : shardOf s = i
  · subst h
    rw [if_pos rfl, if_pos rfl]
  · rw [if_neg h, if_neg (mt Fin.ext h)]
    rfl

theorem strings_add (t : Interner) (s : String) (i : Fin 16) :
    (t.add s).strings i = t.strings i ++ if shardOf s = i then [s] else [] := by
  rw [strings, shards_add]
  split
  · rfl
  · exact (List.append_nil _).symm

theorem later_add (t : Interner) (s : String) : t.Later (t.add s) := by
  intro i
  rw [strings_add]
  exact List.prefix_append _ _

theorem holds_add : (t.add s).Holds s' ↔ t.Holds s' ∨ s' = s := by
  rw [Holds, strings_add, List.mem_append, Holds]
  by_cases h : shardOf s = shardOf s'
  · rw [if_pos h, List.mem_singleton]
  · have hne : s' ≠ s := by
      rintro rfl
      exact h rfl
    simp [h, hne]

theorem length_add (t : Interner) (s : String) (i : Fin 16) :
    ((t.add s).strings i).length = (t.strings i).length + if shardOf s = i then 1 else 0 := by
  rw [strings_add, List.length_append]
  split <;> rfl

/-- The counter does not wrap around: there are too few shards for that. -/
theorem Sound.size_add (ht : t.Sound) (s : String) : (t.add s).size = t.size + 1 := by
  have hsize : t.total.toNat ≤ 16 * 0x10000000 := ht.size_le
  show (t.total + 1).toNat = t.total.toNat + 1
  rw [UInt64.toNat_add, UInt64.toNat_one]
  exact Nat.mod_eq_of_lt (by omega)

/-- A new string may be added to a shard that has room for it. -/
theorem Sound.add (ht : t.Sound) (hs : t.find? s = none)
    (hroom : (t.strings (shardOf s)).length < indexLimit) : (t.add s).Sound := by
  refine {
    indexed := fun i => ?_
    home := fun i s' hs' => ?_
    fits := fun i => ?_
    counted := ?_ }
  · rw [shards_add]
    split
    · next h =>
      subst h
      exact (ht.indexed _).add hs
    · exact ht.indexed i
  · rw [strings_add, List.mem_append] at hs'
    rcases hs' with hs' | hs'
    · exact ht.home i s' hs'
    · split at hs'
      · next h => rwa [List.mem_singleton.mp hs']
      · cases hs'
  · rw [length_add]
    split
    · next h =>
      subst h
      exact hroom
    · exact ht.fits i
  · calc (t.add s).size = t.size + 1 := ht.size_add s
      _ = (∑ i, (t.strings i).length) + ∑ i, if shardOf s = i then 1 else 0 := by
        rw [ht.counted, Finset.sum_ite_eq, if_pos (Finset.mem_univ _)]
      _ = ∑ i, ((t.add s).strings i).length := by
        rw [← Finset.sum_add_distrib]
        exact Finset.sum_congr rfl fun i _ => (length_add t s i).symm

/-! ### The start -/

/-- An interner without any string. -/
def blank : Interner := ⟨Vector.replicate 16 {}, 0⟩

theorem shards_blank (i : Fin 16) : blank.shards[i] = {} := Vector.getElem_replicate i.isLt

theorem strings_blank (i : Fin 16) : blank.strings i = [] := by
  rw [strings, shards_blank]

theorem sound_blank : blank.Sound where
  indexed i := by
    rw [shards_blank]
    exact Shard.indexed_empty
  home i s hs := by
    rw [strings_blank] at hs
    cases hs
  fits i := by
    rw [strings_blank]
    exact Nat.zero_le _
  counted := by
    simp only [strings_blank, List.length_nil, Finset.sum_const_zero]
    rfl

/-- At the start the empty string has been added, and nothing else. -/
theorem new_eq_add : new = blank.add "" := rfl

theorem sound_new : new.Sound := by
  rw [new_eq_add]
  refine sound_blank.add ?_ ?_
  · rw [find?, shards_blank]
    rfl
  · rw [strings_blank]
    decide

theorem holds_new : new.Holds s ↔ s = "" := by
  rw [new_eq_add, holds_add, Holds, strings_blank]
  simp

/-- The empty string is name zero. -/
theorem stores_new : new.Stores "" Name.empty := ⟨0, rfl, rfl⟩

/-! ### One call -/

/-- When the first look finds nothing, the second one does not either, unless others have
been at work in between. -/
theorem intern_eq_enter (s : String) : intern s = enter s := by
  funext t
  rw [intern, Step.bind_of_ok Step.run_get]
  cases h : t.find? s with
  | some k =>
    rw [enter, Step.bind_of_ok Step.run_get]
    simp only [h]
  | none => rfl

/-- How an interner answers a call. -/
inductive Answers (t : Interner) (s : String) : Name → Interner → Prop where
  | found {k : Nat} (h : t.find? s = some k) : Answers t s (pack (shardOf s) k) t
  | added (h : t.find? s = none) (hroom : (t.strings (shardOf s)).length < indexLimit) :
    Answers t s (pack (shardOf s) (t.strings (shardOf s)).length) (t.add s)

/-- How an interner refuses a call: the string is new, and its shard is full. -/
structure Refuses (t : Interner) (s : String) (fault : Fault) (t' : Interner) : Prop where
  unchanged : t' = t
  fault_eq : fault = .trap (.shardFull (shardOf s))
  not_holds : ¬ t.Holds s
  full : (t.strings (shardOf s)).length = indexLimit

/-- One call. -/
theorem Sound.ends_intern (ht : t.Sound) (s : String) :
    Step.Ends (intern s) t (t.Answers s) (t.Refuses s) := by
  rw [intern_eq_enter, enter, Step.ends_bind, Step.ends_get]
  cases h : t.find? s with
  | some k =>
    have hk := ht.place_lt (ht.find?_eq_some.mp h)
    simp only [Name.ofParts_eq_ok (shardOf s).isLt hk, Step.ends_liftM_ok]
    exact .found h
  | none =>
    by_cases hroom : (t.strings (shardOf s)).length < indexLimit
    · have hname := Name.ofParts_eq_ok (shardOf s).isLt hroom
      simp only [strings] at hroom hname
      simp only [hroom, if_pos, Step.ends_bind, Step.ends_set, hname, Step.ends_liftM_ok]
      exact .added h hroom
    · have hfull := Nat.le_antisymm (ht.fits _) (Nat.le_of_not_lt hroom)
      simp only [strings] at hroom
      simp only [hroom, if_false, Step.ends_throw]
      exact ⟨rfl, rfl, ht.find?_eq_none.mp h, hfull⟩

theorem Answers.sound (h : Answers t s n t') (ht : t.Sound) : t'.Sound := by
  cases h with
  | found => exact ht
  | added hnone hroom => exact ht.add hnone hroom

theorem Answers.later (h : Answers t s n t') : t.Later t' := by
  cases h with
  | found => exact .refl t
  | added => exact later_add t s

/-- The name of the answer is the place of the string. -/
theorem Answers.stores (h : Answers t s n t') (ht : t.Sound) : t'.Stores s n := by
  cases h with
  | found hsome => exact ⟨_, ht.find?_eq_some.mp hsome, rfl⟩
  | added =>
    refine ⟨_, ?_, rfl⟩
    rw [strings_add, if_pos rfl]
    exact List.getElem?_concat_length

theorem Answers.holds_iff (h : Answers t s n t') (ht : t.Sound) :
    t'.Holds s' ↔ t.Holds s' ∨ s' = s := by
  cases h with
  | found hsome =>
    refine (or_iff_left_of_imp ?_).symm
    rintro rfl
    exact List.mem_of_getElem? (ht.find?_eq_some.mp hsome)
  | added => exact holds_add

/-- A string that has a place is known by it, and nothing changes. -/
theorem Sound.intern_eq_ok (ht : t.Sound) (hs : t.Stores s n) : intern s t = .ok n t := by
  obtain ⟨k, hk, rfl⟩ := hs
  have hfind := ht.find?_eq_some.mpr hk
  cases hrun : intern s t with
  | ok n t' =>
    cases (ht.ends_intern s).ok hrun with
    | found h =>
      cases h.symm.trans hfind
      rfl
    | added h => cases h.symm.trans hfind
  | error fault t' =>
    exact absurd (List.mem_of_getElem? hk) ((ht.ends_intern s).error hrun).not_holds

/-- However a call ends. -/
theorem Sound.call (ht : t.Sound) (s : String) :
    ((intern s).final t).Sound ∧ t.Later ((intern s).final t) := by
  refine Step.Ends.final (P := fun t' => t'.Sound ∧ t.Later t') ((ht.ends_intern s).imp ?_ ?_)
  · exact fun n t' h => ⟨h.sound ht, h.later⟩
  · rintro fault t' ⟨rfl, -, -, -⟩
    exact ⟨ht, .refl t'⟩

/-- A call brings in its string, unless it is refused. -/
theorem Sound.holds_call (ht : t.Sound) : ((intern s').final t).Holds s ↔
    t.Holds s ∨ s = s' ∧ ∃ n t', intern s t = .ok n t' := by
  cases hrun : intern s' t with
  | ok n t' =>
    rw [Step.final_of_ok hrun, ((ht.ends_intern s').ok hrun).holds_iff ht]
    refine or_congr_right ⟨?_, And.left⟩
    rintro rfl
    exact ⟨rfl, n, t', hrun⟩
  | error fault t' =>
    rw [Step.final_of_error hrun, ((ht.ends_intern s').error hrun).unchanged]
    refine (or_iff_left_of_imp ?_).symm
    rintro ⟨rfl, n, t'', hok⟩
    cases hrun.symm.trans hok

/-! ### All calls -/

/-- The interner after some calls, one after the other; some may have been refused. -/
def after (t : Interner) (asked : List String) : Interner :=
  asked.foldl (fun t s => (intern s).final t) t

/-- One of these calls, made from `t` on, gives the string this name. -/
def Gives (t : Interner) (asked : List String) (s : String) (n : Name) : Prop :=
  ∃ before rest t', asked = before ++ s :: rest ∧ intern s (t.after before) = .ok n t'

theorem after_append (t : Interner) (before rest : List String) :
    t.after (before ++ rest) = (t.after before).after rest := List.foldl_append

theorem gives_cons : t.Gives (s' :: rest) s n ↔
    (s = s' ∧ ∃ t', intern s t = .ok n t') ∨ ((intern s').final t).Gives rest s n := by
  constructor
  · rintro ⟨before, rest', t', heq, hrun⟩
    cases before with
    | nil =>
      cases heq
      exact .inl ⟨rfl, t', hrun⟩
    | cons s'' before =>
      cases heq
      exact .inr ⟨before, rest', t', rfl, hrun⟩
  · rintro (⟨rfl, t', hrun⟩ | ⟨before, rest', t', rfl, hrun⟩)
    · exact ⟨[], rest, t', rfl, hrun⟩
    · exact ⟨s' :: before, rest', t', rfl, hrun⟩

theorem Gives.mem (h : t.Gives asked s n) : s ∈ asked := by
  obtain ⟨before, rest, t', rfl, -⟩ := h
  exact List.mem_append_right _ List.mem_cons_self

theorem Sound.after (ht : t.Sound) (asked : List String) :
    (t.after asked).Sound ∧ t.Later (t.after asked) := by
  induction asked generalizing t with
  | nil => exact ⟨ht, .refl t⟩
  | cons s rest ih =>
    obtain ⟨hsound, hlater⟩ := ht.call s
    obtain ⟨hsound', hlater'⟩ := ih hsound
    exact ⟨hsound', hlater.trans hlater'⟩

/-- A name that was given is the place of its string from then on. -/
theorem Sound.stores_after (ht : t.Sound) (h : t.Gives asked s n) :
    (t.after asked).Stores s n := by
  obtain ⟨before, rest, t', rfl, hrun⟩ := h
  -- the call puts the string in its place, and the rest of the calls leave it there
  have hbefore := (ht.after before).1
  have hanswer := (hbefore.ends_intern s).ok hrun
  have hrest := ((hanswer.sound hbefore).after rest).2
  rw [after_append]
  show (((intern s).final (t.after before)).after rest).Stores s n
  rw [Step.final_of_ok hrun]
  exact (hanswer.stores hbefore).later hrest

/-- The strings of the interner are those that it had, and those that were given names. -/
theorem Sound.holds_after (ht : t.Sound) :
    (t.after asked).Holds s ↔ t.Holds s ∨ ∃ n, t.Gives asked s n := by
  -- the induction is on the calls that are left, from any interner
  induction asked generalizing t with
  | nil =>
    refine (or_iff_left_of_imp ?_).symm
    rintro ⟨n, hgives⟩
    exact absurd hgives.mem List.not_mem_nil
  | cons s' rest ih =>
    show (((intern s').final t).after rest).Holds s ↔ _
    rw [ih (ht.call s').1, ht.holds_call]
    simp only [gives_cons, exists_or, or_assoc, exists_and_left]

/-! ### Room -/

/-- How many different strings a shard is asked to hold, the empty one included. -/
def demand (asked : List String) (i : Fin 16) : Nat :=
  (("" :: asked).toFinset.filter fun s => shardOf s = i).card

/-- A call is only refused when its shard is asked to hold too much: all that the shard
holds was asked for, and the string of the call comes on top. -/
theorem Refuses.lt_demand {fault : Fault} (h : (new.after before).Refuses s fault t')
    (rest : List String) : indexLimit < demand (before ++ s :: rest) (shardOf s) := by
  have ht := (sound_new.after before).1
  have hnodup : (s :: (new.after before).strings (shardOf s)).Nodup :=
    List.nodup_cons.mpr ⟨h.not_holds, (ht.indexed _).nodup⟩
  have hasked : ∀ s' ∈ (new.after before).strings (shardOf s),
      shardOf s' = shardOf s ∧ s' ∈ "" :: before := by
    intro s' hs'
    have hhome := ht.home _ s' hs'
    rw [← hhome] at hs'
    refine ⟨hhome, List.mem_cons.mpr ?_⟩
    rcases sound_new.holds_after.mp hs' with hnew | ⟨n, hgives⟩
    · exact .inl (holds_new.mp hnew)
    · exact .inr hgives.mem
  calc indexLimit < (s :: (new.after before).strings (shardOf s)).length := by
        rw [List.length_cons, h.full]
        exact Nat.lt_succ_self _
    _ = (s :: (new.after before).strings (shardOf s)).toFinset.card :=
        (List.toFinset_card_of_nodup hnodup).symm
    _ ≤ demand (before ++ s :: rest) (shardOf s) := by
        refine Finset.card_le_card fun s' hs' => ?_
        rw [Finset.mem_filter, List.mem_toFinset, ← List.cons_append, List.mem_append]
        rcases List.mem_cons.mp (List.mem_toFinset.mp hs') with rfl | hs'
        · exact ⟨.inr List.mem_cons_self, rfl⟩
        · exact ⟨.inl (hasked s' hs').2, (hasked s' hs').1⟩

/-- As long as no shard is asked to hold too much, every call is answered. -/
theorem exists_answer (hfits : ∀ i, demand (before ++ s :: rest) i ≤ indexLimit) :
    ∃ n t', intern s (new.after before) = .ok n t' := by
  cases hrun : intern s (new.after before) with
  | ok n t' => exact ⟨n, t', rfl⟩
  | error fault t' =>
    have hrefuses := ((sound_new.after before).1.ends_intern s).error hrun
    exact absurd (hfits _) (Nat.not_le_of_lt (hrefuses.lt_demand rest))

/-- A string that was asked for has been given a name then. -/
theorem exists_gives (hfits : ∀ i, demand asked i ≤ indexLimit) (hs : s ∈ asked) :
    ∃ n, new.Gives asked s n := by
  obtain ⟨before, rest, rfl⟩ := List.append_of_mem hs
  obtain ⟨n, t', hrun⟩ := exists_answer hfits
  exact ⟨n, before, rest, t', rfl, hrun⟩

/-! ### The promise -/

/-- What the interner `t` promises when it has been asked for some strings, one after the
other. -/
structure Canonical (asked : List String) (t : Interner) : Prop where
  /-- Every call was answered if no shard was asked to hold more than it can, -/
  answered : (∀ i, demand asked i ≤ indexLimit) → ∀ before s rest, asked = before ++ s :: rest →
    ∃ n t', intern s (new.after before) = .ok n t'
  /-- and a call that is refused finds its shard full, and changes nothing. -/
  refused : ∀ s fault t', intern s t = .error fault t' →
    t' = t ∧ fault = .trap (.shardFull (shardOf s)) ∧
      (t.strings (shardOf s)).length = indexLimit
  /-- Whenever they were given, two names are the same exactly if their strings are. -/
  same_iff : ∀ s n s' n', new.Gives asked s n → new.Gives asked s' n' → (n = n' ↔ s = s')
  /-- A name that was given once leads to its string, and is given again. -/
  permanent : ∀ s n, new.Gives asked s n → t.lookup n = .ok s ∧ intern s t = .ok n t
  /-- A name is one 32-bit word that says in which shard the string is, and where. -/
  stored : ∀ s n, new.Gives asked s n → n.raw < UInt32.size ∧ n.shard = shardOf s ∧
    (t.strings (shardOf s))[n.index]? = some s
  /-- The empty string is name zero, whether or not it was asked for. -/
  empty : t.lookup ⟨0⟩ = .ok "" ∧ intern "" t = .ok ⟨0⟩ t
  /-- The counter counts the strings that were given names, and the empty one. -/
  size : t.size = {s | s = "" ∨ ∃ n, new.Gives asked s n}.ncard
  /-- If nothing was refused, these are the different strings that were asked for. -/
  size_of_fits : (∀ i, demand asked i ≤ indexLimit) → t.size = ("" :: asked).toFinset.card

/-- Whatever was asked for before: names are canonical, and stay so. -/
theorem canonical (asked : List String) : Canonical asked (new.after asked) := by
  obtain ⟨ht, hlater⟩ := sound_new.after asked
  have hstores : ∀ s n, new.Gives asked s n → (new.after asked).Stores s n :=
    fun s n h => sound_new.stores_after h
  have hempty : (new.after asked).Stores "" Name.empty := stores_new.later hlater
  have hsize : (new.after asked).size = {s | s = "" ∨ ∃ n, new.Gives asked s n}.ncard := by
    rw [ht.size_eq]
    simp only [sound_new.holds_after, holds_new]
  refine {
    answered := ?_
    refused := fun s fault t' hrun => ?_
    same_iff := fun s n s' n' h h' => ht.stores_inj (hstores s n h) (hstores s' n' h')
    permanent := fun s n h =>
      ⟨ht.lookup_eq_ok (hstores s n h), ht.intern_eq_ok (hstores s n h)⟩
    stored := fun s n h => ?_
    empty := ⟨ht.lookup_eq_ok hempty, ht.intern_eq_ok hempty⟩
    size := hsize
    size_of_fits := fun hfits => ?_ }
  · rintro hfits before s rest rfl
    exact exists_answer hfits
  · have hrefuses := (ht.ends_intern s).error hrun
    exact ⟨hrefuses.unchanged, hrefuses.fault_eq, hrefuses.full⟩
  · have hs := hstores s n h
    exact ⟨ht.raw_lt hs, ht.shard_eq hs, ht.getElem?_index hs⟩
  · rw [hsize, ← Set.ncard_coe_finset]
    congr 1
    ext s
    rw [Set.mem_ofPred_eq, Finset.mem_coe, List.mem_toFinset, List.mem_cons]
    refine or_congr_right ⟨?_, exists_gives hfits⟩
    rintro ⟨n, hgives⟩
    exact hgives.mem

/-- The same name both times, and a name that does not change when others come. -/
example :
    let t := new.after ["describe", "render", "describe"]
    t.size = 3 ∧ t.lookup ⟨0xb0000000⟩ = .ok "describe" ∧
      (intern "describe").value? new = some ⟨0xb0000000⟩ ∧
      (intern "describe").value? t = some ⟨0xb0000000⟩ := by
  decide

end Interner

end Dispatch
