import Mathlib.Data.List.Induction
import Dispatch.Proofs.Booting
import Dispatch.Proofs.LookupAgreement
import Dispatch.Proofs.Undisturbed

/-!
# The walk up the superclasses

The run-time system tells whether a class descends from another by walking up the
metadata, from each class to its superclass, and comparing type descriptors.  It gives up
after a fixed number of steps, so that metadata which goes round in a circle cannot hold it
up.  Up to that number its answer is what the declarations say; a chain that is longer is
taken for a corrupt one.

## Main definitions

* `Chain.unit` — a module whose classes make a chain of any length.

## Main results

* `Hierarchy.mem_ancestry_iff` — the classes of an ancestry are those that a class
  descends from.
* `World.descendsTo_step` — the walk passes a class that it does not look for.
* `World.descendsTo_false`, `World.descendsTo_above`, `World.descendsTo_unmapped` — the walk
  comes to the root, or gives up there or below.
* `World.descendsFrom_ancestry` — what the run-time system says about ancestry, and that
  it finds every inherited method within reach.
* `Chain.descendsFrom_root` — from one end of a chain to the other.
* `World.ancestry_misjudged` — a chain that is too long, and metadata that got lost.
-/

namespace Dispatch

open Attempt

namespace Hierarchy

variable {h : Hierarchy} {name ancestor : String} {n : Nat} {ancestry : List ClassDecl}

/-- The ancestry of a class consists of the classes that it descends from. -/
theorem mem_ancestry_iff (ha : h.ancestry name = .ok ancestry) :
    (∃ c ∈ ancestry, c.name = ancestor) ↔ ∃ n, h.Descends ancestor n name := by
  constructor
  · rintro ⟨c, hc, rfl⟩
    exact descends_of_mem_ancestry ha hc
  · rintro ⟨n, hn⟩
    obtain ⟨c, hc, hnamed⟩ := hn.mem_ancestry ha
    exact ⟨c, hc, (mem_of_classNamed hnamed).2⟩

/-- A class is fewer steps below another than its ancestry has classes. -/
theorem Descends.lt_length (hd : h.Descends ancestor n name)
    (ha : h.ancestry name = .ok ancestry) : n < ancestry.length := by
  obtain ⟨above, habove, hlength⟩ := hd.ancestry ha
  obtain ⟨decl, hdecl⟩ := hd.classNamed.2
  obtain ⟨c, hc, -⟩ := (Descends.refl hdecl).mem_ancestry habove
  have hpos := List.length_pos_of_mem hc
  omega

/-- Some class is as many steps up as is asked for, if there are so many. -/
theorem exists_descends (ha : h.ancestry name = .ok ancestry) (hn : n < ancestry.length) :
    ∃ ancestor, h.Descends ancestor n name := by
  induction n generalizing name ancestry with
  | zero =>
    obtain ⟨decl, hdecl, -⟩ := ancestry_cases ha
    exact ⟨name, .refl hdecl⟩
  | succ n ih =>
    obtain ⟨decl, hdecl, ⟨-, rfl⟩ | ⟨parent, above, hparent, habove, rfl⟩⟩ := ancestry_cases ha
    · simp at hn
    · obtain ⟨ancestor, hd⟩ := ih habove (by simpa using hn)
      exact ⟨ancestor, .step hdecl hparent hd⟩

end Hierarchy

namespace World

variable {u : Module} {refs : List Method} {w w' : World} {m : Method}
  {className name dynamic top : String} {metadata descriptor typeDescriptor entry : Word}
  {n steps : Nat} {ancestry : List ClassDecl}

/-! ### The walk -/

/-- The walk passes the metadata of a class that it does not look for, and goes on with
that of the superclass. -/
theorem descendsTo_step (hw : Tabled u w) (htype : TypeAt u className w typeDescriptor)
    (hclass : w.machine.classes.get? name = some metadata) (hne : className ≠ name) :
    ∃ decl parent, u.hierarchy.classNamed name = .ok decl ∧ w.ParentWord decl parent ∧
      ∀ steps, descendsTo w.memory typeDescriptor (steps + 1) metadata
        = descendsTo w.memory typeDescriptor steps parent := by
  have hsound := hw.linked.sound
  obtain ⟨t, hat⟩ := hw.classes _ _ hclass
  obtain ⟨decl, parent, hdecl, hparent, hfilled⟩ := hat.filled
  obtain ⟨a, ha, hread⟩ := hfilled.descriptor
  refine ⟨decl, parent, hdecl, hparent, fun steps => ?_⟩
  -- two type descriptors with one address are that of one class
  have hother : a ≠ typeDescriptor := by
    rintro rfl
    exact hne (classSymbol_injective (hw.linked.apart _ _ _ htype ha))
  have haddress : addWord metadata (UInt64.ofNat wordBytes) = .ok (metadata.plus 8) :=
    addWord_owned (k := 1) hsound hat.owns (two_le_words t)
  rw [descendsTo, if_neg (hat.ne_zero hsound), hread, ok_bind, if_neg hother, haddress, ok_bind,
    hfilled.parent, ok_bind]

/-- A walk that does not find the class that it looks for goes through the whole ancestry,
and what is left of its steps starts from the zero that stands above the root. -/
theorem descendsTo_root (hw : Tabled u w) (htype : TypeAt u className w typeDescriptor)
    (rest : Nat) (ancestry : List ClassDecl) :
    ∀ {name : String} {metadata : Word}, u.hierarchy.ancestry name = .ok ancestry →
      w.machine.classes.get? name = some metadata →
      (∀ n, ¬ u.hierarchy.Descends className n name) →
      descendsTo w.memory typeDescriptor (ancestry.length + rest) metadata
        = descendsTo w.memory typeDescriptor rest 0 := by
  -- by induction on the ancestry, from its last class to the root
  induction ancestry using List.reverseRecOn with
  | nil =>
    intro name metadata ha
    obtain ⟨decl, -, ⟨-, hnil⟩ | ⟨parent, above, -, -, hnil⟩⟩ := Hierarchy.ancestry_cases ha
    · cases hnil
    · simp at hnil
  | append_singleton above last ih =>
    intro name metadata ha hclass hno
    obtain ⟨decl, hdecl, hcases⟩ := Hierarchy.ancestry_cases ha
    have hne : className ≠ name := by
      rintro rfl
      exact hno 0 (.refl hdecl)
    obtain ⟨decl', parent, hdecl', hword, hstep⟩ := descendsTo_step hw htype hclass hne
    rw [hdecl] at hdecl'
    cases hdecl'
    rw [List.length_append, List.length_singleton, Nat.add_right_comm, hstep]
    rcases hcases with ⟨hroot, hancestry⟩ | ⟨superclass, above', hsuper, habove, hancestry⟩
    · obtain ⟨rfl, -⟩ := List.append_inj' (hancestry.trans (List.nil_append _).symm) rfl
      rw [ParentWord, hroot] at hword
      rw [hword, List.length_nil, Nat.zero_add]
    · obtain ⟨rfl, -⟩ := List.append_inj' hancestry rfl
      rw [ParentWord, hsuper] at hword
      apply ih habove hword
      intro n hn
      exact hno (n + 1) (.step hdecl hsuper hn)

/-- The walk comes to the root without having found the class. -/
theorem descendsTo_false (hw : Tabled u w) (htype : TypeAt u className w typeDescriptor)
    (ha : u.hierarchy.ancestry dynamic = .ok ancestry)
    (hclass : w.machine.classes.get? dynamic = some metadata)
    (hno : ∀ n, ¬ u.hierarchy.Descends className n dynamic) (hsteps : ancestry.length < steps) :
    descendsTo w.memory typeDescriptor steps metadata = .ok false := by
  obtain ⟨rest, rfl⟩ : ∃ k, steps = ancestry.length + (k + 1) :=
    ⟨steps - ancestry.length - 1, by omega⟩
  rw [descendsTo_root hw htype (rest + 1) ancestry ha hclass hno, descendsTo, if_pos rfl]
  rfl

/-- The walk gives up above the root, if it may take as many steps as there are classes, and
the class that it looks for is not one of them. -/
theorem descendsTo_above (hw : Tabled u w) (htype : TypeAt u className w typeDescriptor)
    (ha : u.hierarchy.ancestry dynamic = .ok ancestry)
    (hclass : w.machine.classes.get? dynamic = some metadata)
    (hno : ∀ n, ¬ u.hierarchy.Descends className n dynamic) :
    descendsTo w.memory typeDescriptor ancestry.length metadata
      = .error (.machine (.unmapped 0)) := by
  have hwalk := descendsTo_root hw htype 0 ancestry ha hclass hno
  rwa [Nat.add_zero, descendsTo] at hwalk

/-- The walk gives up at the class that is as many steps up as it may take, if it has not
found the class that it looks for below. -/
theorem descendsTo_unmapped (hw : Tabled u w) (htype : TypeAt u className w typeDescriptor)
    (hd : u.hierarchy.Descends top n name) :
    ∀ {metadata : Word}, w.machine.classes.get? name = some metadata →
      (∀ k < n, ¬ u.hierarchy.Descends className k name) →
      ∃ a, w.machine.classes.get? top = some a ∧
        descendsTo w.memory typeDescriptor n metadata = .error (.machine (.unmapped a)) := by
  induction hd with
  | refl hdecl => exact fun hclass _ => ⟨_, hclass, rfl⟩
  | @step n name superclass decl hdecl hsuper _ ih =>
    intro metadata hclass hno
    have hne : className ≠ name := by
      rintro rfl
      exact hno 0 (Nat.succ_pos n) (.refl hdecl)
    obtain ⟨decl', parent, hdecl', hword, hstep⟩ := descendsTo_step hw htype hclass hne
    rw [hdecl] at hdecl'
    cases hdecl'
    rw [ParentWord, hsuper] at hword
    rw [hstep]
    apply ih hword
    intro k hk hk'
    exact hno (k + 1) (Nat.succ_lt_succ hk) (.step hdecl hsuper hk')

/-! ### What the run-time system says -/

/-- The run-time system finds every method that a class has, if it is asked for a class
within reach. -/
theorem lookupClassMethod_inherited {owner : String} {k : Nat} (hu : u.Coherent refs)
    (hw : Ready u refs w) (hclass : w.machine.classes.get? dynamic = some metadata)
    (htype : TypeAt u className w typeDescriptor)
    (hd : u.hierarchy.Descends className n dynamic) (hn : n ≤ 63)
    (hintro : u.hierarchy.introduces m = .ok true) (howner : m.owner = .ofClass owner)
    (habove : u.hierarchy.Descends owner k dynamic) :
    ∃ entry, EntryOf u w dynamic m entry ∧
      (∀ descriptor, DescriptorAt u m w descriptor →
        lookupClassMethod metadata descriptor typeDescriptor w = .ok entry w) ∧
      (¬ Exhausted ((askRuntime className metadata m).final w) →
        ∃ w', askRuntime className metadata m w = .ok entry w') := by
  have hself := Module.introducing_of_introduces hintro
  have hlimit : n < maxAncestry := Nat.lt_succ_of_le hn
  obtain ⟨entry, hentry⟩ := exists_entryOf hw.tabled hu.hierarchy hself howner habove hclass
  refine ⟨entry, hentry, ?_, ?_⟩
  · intro descriptor hdescriptor
    exact hentry.lookupClassMethod hw hu.hierarchy hself hclass hd hlimit hdescriptor htype
  · intro hroom
    exact hentry.askRuntime hu hw hintro hclass hd hlimit hroom

/-- Ancestry tests are right up to 63 steps.  In every world whose tables nobody has
overwritten, and for a class with metadata and a type descriptor: the classes of the
ancestry are those that the class descends from; the walk answers with true for those of
them that are at most 63 steps up, and then every method of the class is found; it answers
with false if the ancestry has at most 63 classes and the one that is looked for is not
among them.  If it has 64 or more, and the class that is looked for is not among the last
64, the walk faults: at the class that is 64 steps up, or at the zero above the root. -/
theorem descendsFrom_ancestry (hu : u.Coherent refs) (hw : Undisturbed u refs w)
    (ha : u.hierarchy.ancestry dynamic = .ok ancestry)
    (hclass : w.machine.classes.get? dynamic = some metadata)
    (htype : TypeAt u className w typeDescriptor) :
    ((∃ c ∈ ancestry, c.name = className) ↔ ∃ n, u.hierarchy.Descends className n dynamic) ∧
    (∀ n ≤ 63, u.hierarchy.Descends className n dynamic →
      descendsFrom w.memory metadata typeDescriptor = .ok true ∧
      ∀ m owner k, u.hierarchy.introduces m = .ok true → m.owner = .ofClass owner →
        u.hierarchy.Descends owner k dynamic → ∃ entry, EntryOf u w dynamic m entry ∧
          (∀ descriptor, DescriptorAt u m w descriptor →
            lookupClassMethod metadata descriptor typeDescriptor w = .ok entry w) ∧
          (¬ Exhausted ((askRuntime className metadata m).final w) →
            ∃ w', askRuntime className metadata m w = .ok entry w')) ∧
    ((∀ c ∈ ancestry, c.name ≠ className) → ancestry.length ≤ 63 →
      descendsFrom w.memory metadata typeDescriptor = .ok false) ∧
    ((∀ n ≤ 63, ¬ u.hierarchy.Descends className n dynamic) → 64 ≤ ancestry.length →
      ∃ a, descendsFrom w.memory metadata typeDescriptor = .error (.machine (.unmapped a)) ∧
        ((ancestry.length = 64 ∧ a = 0) ∨ ∃ top, u.hierarchy.Descends top 64 dynamic ∧
          w.machine.classes.get? top = some a)) := by
  obtain ⟨hready, -⟩ := hw.ready hu
  have hiff : (∃ c ∈ ancestry, c.name = className) ↔
      ∃ n, u.hierarchy.Descends className n dynamic := Hierarchy.mem_ancestry_iff ha
  refine ⟨hiff, ?_, ?_, ?_⟩
  · intro n hn hd
    refine ⟨descendsTo_ok hready.tabled hd htype hclass (Nat.lt_succ_of_le hn), ?_⟩
    intro m owner k hintro howner habove
    exact lookupClassMethod_inherited hu hready hclass htype hd hn hintro howner habove
  · intro hnot hlength
    apply descendsTo_false hready.tabled htype ha hclass _ (Nat.lt_succ_of_le hlength)
    intro n hn
    obtain ⟨c, hc, hname⟩ := hiff.mpr ⟨n, hn⟩
    exact hnot c hc hname
  · intro hno hlength
    rcases Nat.eq_or_lt_of_le hlength with heq | hlt
    · -- the ancestry ends where the walk does
      have hnone : ∀ n, ¬ u.hierarchy.Descends className n dynamic := by
        intro n hn
        have hshort := hn.lt_length ha
        exact hno n (by omega) hn
      have hwalk := descendsTo_above hready.tabled htype ha hclass hnone
      rw [← heq] at hwalk
      exact ⟨0, hwalk, .inl ⟨heq.symm, rfl⟩⟩
    · obtain ⟨top, htop⟩ := Hierarchy.exists_descends ha hlt
      obtain ⟨a, htopAt, hwalk⟩ := descendsTo_unmapped hready.tabled htype htop hclass
        fun k hk => hno k (Nat.le_of_lt_succ hk)
      exact ⟨a, hwalk, .inr ⟨top, htop, htopAt⟩⟩

/-- Squares descend from shapes, and the area of a square is found. -/
theorem descendsFrom_ancestry_square :
    ∃ typeDescriptor entry w', TypeAt Shapes.unit "Shape" Shapes.unit.start typeDescriptor ∧
      descendsFrom Shapes.unit.start.memory 4240 typeDescriptor = .ok true ∧
      askRuntime "Shape" 4240 Shapes.area Shapes.unit.start = .ok entry w' ∧
      EntryOf Shapes.unit Shapes.unit.start "Square" Shapes.area entry := by
  have hstart : Shapes.unit.boot.isOk = true ∧ ¬ Exhausted Shapes.unit.start ∧
      (Shapes.unit.hierarchy.ancestry "Square").isOk = true ∧
      Shapes.unit.hierarchy.steps? "Shape" "Square" = some 1 ∧
      Shapes.unit.start.machine.classes.get? "Square" = some 4240 ∧
      (Shapes.unit.start.link? (classSymbol "shapes" "Shape" .typeDescriptor)).isSome = true ∧
      Shapes.unit.hierarchy.introduces Shapes.area = .ok true ∧
      ¬ Exhausted ((askRuntime "Shape" 4240 Shapes.area).final Shapes.unit.start) := by
    decide +kernel
  obtain ⟨hboot, hroom, hancestry, hsteps, hclass, hlink, hintro, hask⟩ := hstart
  obtain ⟨ancestry, ha⟩ := exists_ok hancestry
  obtain ⟨typeDescriptor, hsome⟩ := Option.isSome_iff_exists.mp hlink
  have htype : TypeAt Shapes.unit "Shape" Shapes.unit.start typeDescriptor := hsome
  have hdescends := Hierarchy.descends_of_steps? hsteps
  obtain ⟨-, hwithin, -, -⟩ := descendsFrom_ancestry Shapes.coherent_unit
    (reached_start hboot hroom).undisturbed ha hclass htype
  obtain ⟨hwalk, hfinds⟩ := hwithin 1 (by decide) hdescends
  obtain ⟨entry, hentry, -, hasked⟩ := hfinds Shapes.area "Shape" 1 hintro rfl hdescends
  obtain ⟨w', hrun⟩ := hasked hask
  exact ⟨typeDescriptor, entry, w', htype, hwalk, hrun, hentry⟩

end World

/-! ### A chain of any length -/

namespace Chain

open World

/-- The name of the class with so many classes above it. -/
def name (n : Nat) : String := String.ofList (List.replicate (n + 1) 'A')

/-- The class with so many classes above it. -/
def decl (n : Nat) : ClassDecl where
  name := name n
  superclass := match n with
    | 0 => none
    | above + 1 => some (name above)
  resilient := false
  methods := []

/-- A chain of classes, each the superclass of the next.  They have no methods. -/
def unit (n : Nat) : Module where
  hierarchy := { module := "chain", classes := (List.range (n + 1)).map decl }

variable {n k : Nat}

theorem name_injective {i j : Nat} (h : name i = name j) : i = j := by
  have hlength := congrArg List.length (String.ofList_injective h)
  rw [List.length_replicate, List.length_replicate] at hlength
  omega

theorem nodup_names (n : Nat) : ((unit n).hierarchy.classes.map ClassDecl.name).Nodup := by
  rw [unit, List.map_map]
  apply List.nodup_range.map
  intro i j hij
  exact name_injective hij

theorem decl_mem (hk : k ≤ n) : decl k ∈ (unit n).hierarchy.classes :=
  List.mem_map.mpr ⟨k, List.mem_range.mpr (Nat.lt_succ_of_le hk), rfl⟩

theorem methods_eq_nil {c : ClassDecl} (hc : c ∈ (unit n).hierarchy.classes) : c.methods = [] := by
  obtain ⟨k, -, rfl⟩ := List.mem_map.mp hc
  rfl

theorem classNamed_name (hk : k ≤ n) : (unit n).hierarchy.classNamed (name k) = .ok (decl k) := by
  have hfind := Hierarchy.find?_reverse_eq_some (nodup_names n) (decl_mem hk)
  have hname : (decl k).name = name k := rfl
  rw [hname] at hfind
  rw [Hierarchy.classNamed, hfind]

theorem lineageTo_name (hk : k ≤ n) :
    (unit n).hierarchy.lineageTo (k + 1) (name k)
      = .ok ((List.range (k + 1)).map decl).reverse := by
  induction k with
  | zero =>
    rw [Hierarchy.lineageTo, classNamed_name hk]
    rfl
  | succ k ih =>
    have hsuper : (decl (k + 1)).superclass = some (name k) := rfl
    rw [Hierarchy.lineageTo, classNamed_name hk, ok_bind, hsuper]
    simp only [ih (Nat.le_of_succ_le hk), ok_bind]
    rw [List.range_succ (n := k + 1), List.map_append, List.reverse_append]
    rfl

/-- Above a class are the classes with fewer classes above them. -/
theorem ancestry_name (hk : k ≤ n) :
    (unit n).hierarchy.ancestry (name k) = .ok ((List.range (k + 1)).map decl) := by
  have hsteps : k + 1 ≤ (unit n).hierarchy.classes.length + 1 := by
    rw [unit, List.length_map, List.length_range]
    omega
  rw [Hierarchy.ancestry, Hierarchy.lineageTo_mono hsteps (lineageTo_name hk), ok_bind,
    List.reverse_reverse]
  rfl

theorem descends_root (hk : k ≤ n) : (unit n).hierarchy.Descends (name 0) k (name k) := by
  induction k with
  | zero => exact .refl (classNamed_name hk)
  | succ k ih => exact .step (classNamed_name hk) rfl (ih (Nat.le_of_succ_le hk))

theorem wellFormed_unit (n : Nat) : (unit n).hierarchy.WellFormed where
  classNames := nodup_names n
  ancestries := by
    intro c hc
    obtain ⟨k, hk, rfl⟩ := List.mem_map.mp hc
    exact ⟨_, ancestry_name (Nat.le_of_lt_succ (List.mem_range.mp hk))⟩
  owned := by
    intro c hc d hd
    simp [methods_eq_nil hc] at hd
  once := by
    intro c hc
    simp [methods_eq_nil hc]
  overrides := by
    intro c hc d hd
    simp [methods_eq_nil hc] at hd
  protocolNames := List.nodup_nil
  requirements := by
    intro p hp
    cases hp

theorem not_implements (n : Nat) (symbol : String) (m : Method) :
    ¬ (unit n).Implements symbol m := by
  rintro ⟨implementations, himpl, hin⟩
  rcases (Module.mem_implementations himpl).mp hin with ⟨c, hc, d, hd, -⟩ | ⟨c, hc, -⟩
  · simp [methods_eq_nil hc] at hd
  · cases hc

theorem coherent_unit (n : Nat) : (unit n).Coherent [] where
  hierarchy := wellFormed_unit n
  references := by
    refine ⟨fun c hc d hd => ?_, fun p hp => ?_, fun m hm => ?_, fun m hm => ?_⟩
    · simp [methods_eq_nil hc] at hd
    · cases hp
    · cases hm
    · cases hm
  pool := show Pool.new.shapes.Nodup by decide
  frames := rfl
  thunks := rfl
  lookups := rfl
  globals := rfl
  signatures symbol m _ hm := (not_implements n symbol m hm).elim
  apart symbol m _ hm := (not_implements n symbol m hm).elim
  sized m hm := by cases hm

/-- Every class of the chain takes as many bytes. -/
theorem bytes_unit (n : Nat) : (unit n).hierarchy.bytes = 80 * (n + 1) := by
  have hclass : ∀ c ∈ (unit n).hierarchy.classes,
      (unit n).hierarchy.classBytes c.name = 80 := by
    intro c hc
    obtain ⟨t, ht⟩ := (wellFormed_unit n).vtable ((wellFormed_unit n).classNamed hc)
    have hentries : t.entries = [] := by
      apply List.eq_nil_iff_forall_not_mem.mpr
      refine (wellFormed_unit n).forall_entries (P := fun _ => False) (fun c hc d hd => ?_) ht
      simp [methods_eq_nil hc] at hd
    rw [Hierarchy.classBytes_eq ht, VTable.words, hentries]
    rfl
  have hpending : (unit n).hierarchy.pendingBytes {}
      = ((unit n).hierarchy.classes.map fun _ => 80).sum :=
    congrArg List.sum (List.map_congr_left hclass)
  have hlength : (unit n).hierarchy.classes.length = n + 1 := by
    rw [unit, List.length_map, List.length_range]
  rw [Hierarchy.bytes, hpending, List.map_const', List.sum_replicate, hlength]
  exact Nat.mul_comm _ _

/-- The chain boots, if it fits into memory. -/
theorem reached_start (hroom : 4096 + 80 * (n + 1) ≤ Size.limit) :
    Reached (unit n) [] (unit n).start := by
  rw [← bytes_unit] at hroom
  obtain ⟨hboot, hleft⟩ := Module.boots (coherent_unit n) (by intro c hc; cases hc) hroom
  exact World.reached_start hboot hleft

/-- The walk from the last class of a chain to the root: it gets there if it takes at most 63
steps, and gives up if it takes more. -/
theorem descendsFrom_root (hroom : 4096 + 80 * (n + 1) ≤ Size.limit) :
    ∃ metadata root, (unit n).start.machine.classes.get? (name n) = some metadata ∧
      TypeAt (unit n) (name 0) (unit n).start root ∧
      (n ≤ 63 → descendsFrom (unit n).start.memory metadata root = .ok true) ∧
      (63 < n → ∃ a, descendsFrom (unit n).start.memory metadata root
        = .error (.machine (.unmapped a))) := by
  obtain ⟨hready, -⟩ := (reached_start hroom).ready (coherent_unit n)
  obtain ⟨metadata, hclass⟩ := hready.tabled.declared _ (decl_mem (Nat.le_refl n))
  obtain ⟨first, hfirst⟩ := hready.tabled.declared _ (decl_mem (Nat.zero_le n))
  obtain ⟨t, hat⟩ := hready.tabled.classes _ _ hfirst
  obtain ⟨_, _, -, -, hfilled⟩ := hat.filled
  obtain ⟨root, hroot, -⟩ := hfilled.descriptor
  refine ⟨metadata, root, hclass, hroot, ?_, ?_⟩
  · intro hn
    exact descendsTo_ok hready.tabled (descends_root (Nat.le_refl n)) hroot hclass
      (Nat.lt_succ_of_le hn)
  · intro hn
    have ha := ancestry_name (Nat.le_refl n)
    obtain ⟨top, htop⟩ := Hierarchy.exists_descends (n := maxAncestry) ha
      (by rw [List.length_map, List.length_range]; exact Nat.succ_lt_succ hn)
    -- the root is as many steps up as the chain is long, and in no other place
    have hno : ∀ k < maxAncestry, ¬ (unit n).hierarchy.Descends (name 0) k (name n) := by
      intro k hk hd
      obtain ⟨above, habove, hlength⟩ := hd.ancestry ha
      rw [ancestry_name (Nat.zero_le n)] at habove
      cases habove
      simp only [List.length_map, List.length_range] at hlength
      rw [maxAncestry] at hk
      omega
    obtain ⟨a, -, hwalk⟩ := descendsTo_unmapped hready.tabled hroot htop hclass hno
    exact ⟨a, hwalk⟩

end Chain

/-! ### Two ways to go wrong -/

/-- Ancestry is misjudged in two ways.  From the last of 65 classes, each the superclass of
the next, the walk gives up before it comes to the root.  And after a call for a receiver that
the method does not have, which overwrites metadata, a class does not descend from itself, and
its own methods are not found. -/
theorem World.ancestry_misjudged :
    ((Chain.unit 64).Coherent [] ∧ World.Reached (Chain.unit 64) [] (Chain.unit 64).start ∧
      (∃ ancestry, (Chain.unit 64).hierarchy.ancestry (Chain.name 64) = .ok ancestry ∧
        ∃ c ∈ ancestry, c.name = Chain.name 0) ∧
      ∃ metadata root a,
        (Chain.unit 64).start.machine.classes.get? (Chain.name 64) = some metadata ∧
        World.TypeAt (Chain.unit 64) (Chain.name 0) (Chain.unit 64).start root ∧
        descendsFrom (Chain.unit 64).start.memory metadata root
          = .error (.machine (.unmapped a))) ∧
    (Crossed.unit.Coherent Crossed.methods ∧ World.Operated Crossed.unit Crossed.confused ∧
      (Crossed.unit.hierarchy.ancestry "Right").toOption.map (·.map ClassDecl.name)
        = some ["Right"] ∧
      Crossed.confused.machine.classes.get? "Right" = some 0x1070 ∧
      World.TypeAt Crossed.unit "Right" Crossed.confused 0x10a0 ∧
      descendsFrom Crossed.confused.memory 0x1070 0x10a0 = .ok false ∧
      Crossed.unit.hierarchy.introduces Crossed.reset = .ok true ∧
      (World.askRuntime "Right" 0x1070 Crossed.reset).succeeds Crossed.confused = false) := by
  have hroom : 4096 + 80 * (64 + 1) ≤ Size.limit := by decide
  have hlong : (Chain.unit 64).hierarchy.ancestry (Chain.name 64) = _ :=
    Chain.ancestry_name (Nat.le_refl 64)
  have hroot : Chain.decl 0 ∈ (List.range (64 + 1)).map Chain.decl :=
    List.mem_map.mpr ⟨0, by decide, rfl⟩
  obtain ⟨metadata, root, hclass, htype, -, hwalk⟩ := Chain.descendsFrom_root hroom
  obtain ⟨a, hgiven⟩ := hwalk (by decide)
  have hboot : Crossed.unit.boot.isOk = true := by decide +kernel
  have hconfused : World.Operated Crossed.unit Crossed.confused :=
    .operate (.operate (World.operated_start hboot)
      (.request (.implement "reset" fun _ _ => .error 7))) (.request (.callThunk Crossed.set _))
  refine ⟨⟨Chain.coherent_unit 64, Chain.reached_start hroom, ⟨_, hlong, _, hroot, rfl⟩,
    metadata, root, a, hclass, htype, hgiven⟩, Crossed.coherent_unit, hconfused, ?_⟩
  unfold World.TypeAt
  decide +kernel

end Dispatch
