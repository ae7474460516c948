import Dispatch.Proofs.Memory.History

/-!
# Where the bytes of a word lie

A word is eight bytes long, and memory goes by its address, that is by the first of them: when
that one is inside of a region, the word is read, written or taken.  At an address that is a
whole number of words this is enough, since regions start at such addresses and whole words
are set aside for them.  At other addresses the word may run over the end of its region.  It
then ends in the gap behind it, and never comes as far as the next one.

## Main definitions

* `Region.edge` — where the bytes end that are set aside for a region.
* `Memory.Spans` — what is known of the bytes of a word that starts in a region.

## Main results

* `Memory.access_spans` — at every point of a run, the word of an access that succeeds.
-/

namespace Dispatch

/-- The address after the bytes that are set aside for a region. -/
def Region.edge (r : Region) : Nat := r.base.toNat + extent r.bytes

namespace Memory

variable {m : Memory} {h : History} {r r' : Region} {a : Word}

theorem stop_le_edge (r : Region) : r.stop ≤ r.edge :=
  Nat.add_le_add_left (le_extent r.bytes) _

/-- A region that was asked for with whole words is all that is set aside for it. -/
theorem edge_eq_stop (hwhole : wordBytes ∣ r.bytes) (hpos : 0 < r.bytes) : r.edge = r.stop := by
  simp only [Region.edge, Region.stop, Region.extent, wordBytes] at hwhole ⊢
  omega

theorem Tells.dvd_edge (ht : Tells h m) (hr : r ∈ m.regions) : wordBytes ∣ r.edge :=
  Nat.dvd_add (ht.aligned.2 r hr) (dvd_extent r.bytes)

/-- Two regions are the same, or what is set aside for one ends 16 bytes before the other. -/
theorem Sound.edge_apart (hm : m.Sound) (hr : r ∈ m.regions) (hr' : r' ∈ m.regions) :
    r = r' ∨ r.edge + 16 ≤ r'.base.toNat ∨ r'.edge + 16 ≤ r.base.toNat := by
  have howns : m.Owns r.base r.bytes := hr
  rcases howns.apart hm (show m.Owns r'.base r'.bytes from hr') with ⟨hbase, hbytes⟩ | happart
  · cases r
    cases r'
    simp_all
  · exact .inr happart

/-- The word at `a` starts in the region `r`.  This says where its eight bytes are then. -/
structure Spans (m : Memory) (a : Word) (r : Region) : Prop where
  region : r ∈ m.regions
  start : r.base.toNat ≤ a.toNat
  /-- It starts in the bytes that were asked for.  An empty region counts as one byte. -/
  stop : a.toNat < r.stop
  /-- At an aligned address it lies inside of what is set aside for the region. -/
  inside : 8 ∣ a.toNat → a.toNat + 8 ≤ r.edge
  /-- If moreover the region was asked for with whole words, it lies inside of these. -/
  whole : 8 ∣ a.toNat → 8 ∣ r.bytes → 0 < r.bytes → a.toNat + 8 ≤ r.base.toNat + r.bytes
  /-- At any other address it ends at most seven bytes later, where the gap is. -/
  overrun : a.toNat + 8 ≤ r.edge + 7
  /-- None of its bytes is set aside for another region. -/
  apart : ∀ r' ∈ m.regions, r' ≠ r → ∀ place, a.toNat ≤ place → place < a.toNat + 8 →
    ¬ (r'.base.toNat ≤ place ∧ place < r'.edge)

theorem Tells.spans (ht : Tells h m) (hr : r ∈ m.regions) (hstart : r.base.toNat ≤ a.toNat)
    (hstop : a.toNat < r.stop) : Spans m a r := by
  have hedge := stop_le_edge r
  -- the edge and the address are both whole numbers of words, so a whole word is between them
  have hinside : 8 ∣ a.toNat → a.toNat + 8 ≤ r.edge := by
    intro haligned
    have hdvd := ht.dvd_edge hr
    simp only [wordBytes] at hdvd
    omega
  refine ⟨hr, hstart, hstop, hinside, fun haligned hwhole hpos => ?_, by omega, ?_⟩
  · have hin := hinside haligned
    have hbytes : max r.bytes 1 = r.bytes := by omega
    rwa [edge_eq_stop hwhole hpos, Region.stop, hbytes] at hin
  · rintro r' hr' hne place hle hlt ⟨hle', hlt'⟩
    rcases ht.sound.edge_apart hr hr' with heq | hbelow | habove
    · exact hne heq.symm
    · omega
    · omega

/-- Only a word that starts in a region is read, written or taken. -/
theorem Tells.exists_region (ht : Tells h m) {x : Access} {words : List Word} {m' : Memory}
    (hrun : x.run a m = .ok words m') :
    ∃ r ∈ m.regions, r.base.toNat ≤ a.toNat ∧ a.toNat < r.stop := by
  have hmapped := History.mapped_of_admits ((ht.ends_run x a).ok hrun).1
  rw [History.mapped, List.any_eq_true, ← ht.regions] at hmapped
  simpa using hmapped

/-- At every point of a run, whatever was asked of fresh memory before: an access that
succeeds starts in a region, and its word ends there or in the gap behind it. -/
theorem access_spans (requests : List Request) (x : Access) (a : Word) (words : List Word)
    (m' : Memory) (hrun : x.run a (Memory.after {} requests) = .ok words m') :
    ∃ r, Spans (Memory.after {} requests) a r := by
  have ht := Tells.start.after requests
  obtain ⟨r, hr, hstart, hstop⟩ := ht.exists_region hrun
  exact ⟨r, ht.spans hr hstart hstop⟩

/-- The last word of the second region, of which only half was asked for. -/
theorem access_spans_last :
    Access.run 0x1028 .read (Memory.after {} [.alloc 8, .alloc 20]) =
        .ok [0] (Memory.after {} [.alloc 8, .alloc 20]) ∧
      ∃ r, Spans (Memory.after {} [.alloc 8, .alloc 20]) 0x1028 r :=
  have hrun : Access.run 0x1028 .read (Memory.after {} [.alloc 8, .alloc 20]) =
      .ok [0] (Memory.after {} [.alloc 8, .alloc 20]) := rfl
  ⟨hrun, access_spans _ _ _ _ _ hrun⟩

/-- In a region of eight bytes, the word that starts at the fifth of them is read, written and
taken, though it ends four bytes behind the last.  And an empty region holds the word at its
base, with none of its bytes. -/
theorem access_overruns :
    (∀ x ∈ [Access.read, .write 7, .take], ∃ words,
      (Request.access x 0x1004).outcome (Memory.after {} [.alloc 8]) = .ok words) ∧
    (∀ r ∈ (Memory.after {} [.alloc 8]).regions, r.edge = r.base.toNat + r.bytes ∧
      ¬ (r.base.toNat ≤ (0x1004 : Word).toNat ∧ (0x1004 : Word).toNat + 8 ≤ r.edge)) ∧
    (Memory.after {} [.alloc 0]).read 0x1000 = .ok 0 ∧
    ∀ r ∈ (Memory.after {} [.alloc 0]).regions, ¬ (r.base.toNat ≤ (0x1000 : Word).toNat ∧
      (0x1000 : Word).toNat + 8 ≤ r.base.toNat + r.bytes) := by
  refine ⟨fun x hx => ?_, by decide⟩
  simp only [List.mem_cons, List.not_mem_nil, or_false] at hx
  rcases hx with rfl | rfl | rfl
  · exact ⟨[0], by decide⟩
  · exact ⟨[], by decide⟩
  · exact ⟨[0], by decide⟩

end Memory

end Dispatch
