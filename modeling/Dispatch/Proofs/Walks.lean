import Mathlib.Logic.Relation
import Dispatch.Proofs.Hierarchy

/-!
# Walks along declarations

Both walks of a hierarchy, from a class to its superclass and from a method to the one that
it overrides, look a name up and go on to the name that is found there.  Nobody checks that
such a walk comes to an end.  It does unless it comes back to a name where it was, since there
are only so many names that are declared: a walk without an end has to use one of them twice.

The definitions of the hierarchy count the steps of a walk and give up when there are more of
them than declarations.  Here a walk is described without such a count, and the two agree.

## Main definitions

* `Attempt.Finishes` — there is an answer, or a question that has none.
* `Walk` — what is looked up, and where a walk goes next.
* `Walk.Ends` — a walk ends, and with which result.
* `Walk.Circles` — a walk comes back to where it was.
* `Hierarchy.climb`, `Hierarchy.trace` — the two walks of a hierarchy.
* `Hierarchy.SuperclassesEnd`, `Hierarchy.OverridesEnd` — no walk goes in a circle.
* `Hierarchy.WalksEnd` — which walks end, and what they give.

## Main results

* `Walk.exists_ends_iff` — a walk ends unless it goes in a circle.
* `Hierarchy.walksEnd` — this is so of every hierarchy.
-/

namespace Dispatch

open Attempt Relation

/-! ### Attempts that finish -/

namespace Attempt

variable {α β : Type}

/-- There is an answer, or the question is one that has none. -/
def Finishes (x : Attempt α) : Prop := (∃ a, x = .ok a) ∨ ∃ cause, x = Attempt.abi cause

namespace Finishes

theorem ok (a : α) : Finishes (.ok a) := .inl ⟨a, rfl⟩

theorem abi (cause : AbiError) : Finishes (Attempt.abi cause : Attempt α) := .inr ⟨cause, rfl⟩

/-- What goes on after an attempt that finishes. -/
theorem bind_cases {x : Attempt α} {f : α → Attempt β} {P : Attempt β → Prop} (hx : x.Finishes)
    (habi : ∀ cause, P (Attempt.abi cause)) (hf : ∀ a, x = .ok a → P (f a)) : P (x >>= f) := by
  rcases hx with ⟨a, rfl⟩ | ⟨cause, rfl⟩
  · exact hf a rfl
  · exact habi cause

theorem bind {x : Attempt α} {f : α → Attempt β} (hx : x.Finishes)
    (hf : ∀ a, x = .ok a → (f a).Finishes) : (x >>= f).Finishes :=
  bind_cases (P := Finishes) hx abi hf

theorem map {x : Attempt α} (hx : x.Finishes) (f : α → β) : (f <$> x).Finishes := by
  rcases hx with ⟨a, rfl⟩ | ⟨cause, rfl⟩
  · exact ok (f a)
  · exact abi cause

theorem foldlM {f : β → α → Attempt β} {l : List α} (hf : ∀ b, ∀ a ∈ l, (f b a).Finishes) (b : β) :
    (l.foldlM f b).Finishes := by
  induction l generalizing b with
  | nil => exact ok b
  | cons a rest ih =>
    rw [List.foldlM_cons]
    exact (hf b a List.mem_cons_self).bind fun b' _ =>
      ih (fun b a ha => hf b a (List.mem_cons_of_mem _ ha)) b'

theorem mapM {f : α → Attempt β} {l : List α} (hf : ∀ a ∈ l, (f a).Finishes) :
    (l.mapM f).Finishes := by
  induction l with
  | nil => exact ok []
  | cons a rest ih =>
    rw [List.mapM_cons]
    refine (hf a List.mem_cons_self).bind fun b _ => ?_
    exact (ih fun a ha => hf a (List.mem_cons_of_mem _ ha)).bind fun bs _ => ok (b :: bs)

theorem ne_trap {x : Attempt α} (hx : x.Finishes) (cause : Trap) : x ≠ Attempt.trap cause := by
  rintro rfl
  simp [Finishes, Attempt.trap, Attempt.abi] at hx

end Finishes

end Attempt

/-! ### Walks -/

/-- A walk: what is looked up under a name, where it goes from there, and how its result is
put together on the way back. -/
structure Walk (α β γ : Type) where
  look : α → Attempt β
  next : β → Option α
  /-- The result, if the walk ends here. -/
  last : β → γ
  /-- The result, from what the rest of the walk gives. -/
  more : β → γ → γ
  /-- Every name under which something is found is one of these. -/
  known : List α
  mem_known : ∀ {a b}, look a = .ok b → a ∈ known
  finishes : ∀ a, (look a).Finishes

namespace Walk

variable {α β γ : Type} {w : Walk α β γ} {a a' : α} {b : β} {r r' : Attempt γ} {n : Nat}

/-- From one name to the next. -/
def Goes (w : Walk α β γ) (a a' : α) : Prop := ∃ b, w.look a = .ok b ∧ w.next b = some a'

/-- The walk comes back to a name where it was. -/
def Circles (w : Walk α β γ) (a : α) : Prop :=
  ∃ a', ReflTransGen w.Goes a a' ∧ TransGen w.Goes a' a'

/-- The walk from a name ends after a number of steps with a result: it stops where nothing
is found, and where it has nowhere to go on to. -/
inductive Ends (w : Walk α β γ) : α → Attempt γ → Prop
  | lost {a : α} {fault : Fault} (hlook : w.look a = .error fault) : Ends w a (.error fault)
  | last {a : α} {b : β} (hlook : w.look a = .ok b) (hnext : w.next b = none) :
    Ends w a (.ok (w.last b))
  | more {a a' : α} {b : β} {r : Attempt γ} (hlook : w.look a = .ok b) (hnext : w.next b = some a')
    (hrest : Ends w a' r) : Ends w a (w.more b <$> r)

/-- The same walk in at most the given number of steps. -/
def runTo (w : Walk α β γ) : Nat → α → Attempt γ
  | 0, _ => Attempt.trap .endless
  | n + 1, a => do
    let b ← w.look a
    match w.next b with
    | none => return w.last b
    | some a' => return w.more b (← w.runTo n a')

/-- The walk in at most one step more than there are names. -/
def run (w : Walk α β γ) (a : α) : Attempt γ := w.runTo (w.known.length + 1) a

theorem runTo_of_next (hlook : w.look a = .ok b) (hnext : w.next b = some a') :
    w.runTo (n + 1) a = w.more b <$> w.runTo n a' := by
  rw [runTo, hlook, ok_bind]
  simp only [hnext, map_eq_pure_bind]

/-- There is only one way to go. -/
theorem Goes.eq {a₁ a₂ : α} (h₁ : w.Goes a a₁) (h₂ : w.Goes a a₂) : a₁ = a₂ := by
  obtain ⟨b, hlook, hnext⟩ := h₁
  obtain ⟨b', hlook', hnext'⟩ := h₂
  rw [hlook, Except.ok.injEq] at hlook'
  subst hlook'
  rw [hnext, Option.some.injEq] at hnext'
  exact hnext'

/-- A walk has one result at most. -/
theorem Ends.eq (h : w.Ends a r) (h' : w.Ends a r') : r = r' := by
  induction h generalizing r' with
  | lost hlook => cases h' <;> simp_all
  | last hlook hnext => cases h' <;> simp_all
  | more hlook hnext _ ih =>
    cases h' with
    | lost hlook' => simp_all
    | last hlook' hnext' => simp_all
    | more hlook' hnext' hrest' =>
      rw [hlook, Except.ok.injEq] at hlook'
      subst hlook'
      rw [hnext, Option.some.injEq] at hnext'
      subst hnext'
      rw [ih hrest']

theorem Ends.finishes (h : w.Ends a r) : r.Finishes := by
  induction h with
  | @lost a fault hlook =>
    have hfinishes := w.finishes a
    rw [hlook] at hfinishes
    rcases hfinishes with ⟨b, hb⟩ | ⟨cause, hcause⟩
    · cases hb
    · exact .inr ⟨cause, by injection hcause with heq; rw [heq]; rfl⟩
  | last => exact .ok _
  | more _ _ _ ih => exact ih.map _

/-! ### Circles -/

theorem Circles.of_goes (hgoes : w.Goes a a') (hcircles : w.Circles a') : w.Circles a := by
  obtain ⟨c, hto, haround⟩ := hcircles
  exact ⟨c, hto.head hgoes, haround⟩

/-- A walk that goes in a circle takes a step, and still does. -/
theorem Circles.exists_goes (hcircles : w.Circles a) : ∃ a', w.Goes a a' ∧ w.Circles a' := by
  obtain ⟨c, hto, haround⟩ := hcircles
  rcases hto.cases_head with rfl | ⟨a', hgoes, hto⟩
  · obtain ⟨a', hgoes, hback⟩ := TransGen.head'_iff.mp haround
    exact ⟨a', hgoes, a, hback, haround⟩
  · exact ⟨a', hgoes, c, hto, haround⟩

/-- A walk that goes in a circle does not end. -/
theorem Ends.not_circles (h : w.Ends a r) : ¬ w.Circles a := by
  induction h with
  | lost hlook =>
    intro hcircles
    obtain ⟨a', ⟨b, hlook', -⟩, -⟩ := hcircles.exists_goes
    rw [hlook] at hlook'
    cases hlook'
  | last hlook hnext =>
    intro hcircles
    obtain ⟨a', ⟨b, hlook', hnext'⟩, -⟩ := hcircles.exists_goes
    simp_all
  | more hlook hnext _ ih =>
    intro hcircles
    obtain ⟨a', hgoes, hcircles'⟩ := hcircles.exists_goes
    rw [hgoes.eq ⟨_, hlook, hnext⟩] at hcircles'
    exact ih hcircles'

/-- However many steps it is given, it uses them all. -/
theorem Circles.runTo (hcircles : w.Circles a) (n : Nat) : w.runTo n a = Attempt.trap .endless := by
  induction n generalizing a with
  | zero => rfl
  | succ n ih =>
    obtain ⟨a', ⟨b, hlook, hnext⟩, hcircles'⟩ := hcircles.exists_goes
    rw [runTo_of_next hlook hnext, ih hcircles']
    rfl

/-- Any other walk ends, in no more steps than there are names ahead of it.  This goes by
induction on the steps: a name where the walk was is not ahead of it any more. -/
theorem ends_runTo [DecidableEq α] {ahead : List α}
    (hahead : ∀ {a' b}, ReflTransGen w.Goes a a' → w.look a' = .ok b → a' ∈ ahead)
    (hn : ahead.length < n) (hcircles : ¬ w.Circles a) : w.Ends a (w.runTo n a) := by
  induction n generalizing a ahead with
  | zero => omega
  | succ n ih =>
    cases hlook : w.look a with
    | error fault =>
      rw [Walk.runTo, hlook]
      exact .lost hlook
    | ok b =>
      cases hnext : w.next b with
      | none =>
        rw [Walk.runTo, hlook, ok_bind]
        simp only [hnext]
        exact .last hlook hnext
      | some a' =>
        have hgoes : w.Goes a a' := ⟨b, hlook, hnext⟩
        have hin : a ∈ ahead := hahead .refl hlook
        rw [runTo_of_next hlook hnext]
        refine .more hlook hnext (@ih a' (ahead.filter (· ≠ a)) ?_ ?_ ?_)
        · -- to meet `a` again further on would be a circle
          intro c b' hto hlook'
          refine List.mem_filter.mpr ⟨hahead (hto.head hgoes) hlook', decide_eq_true ?_⟩
          rintro rfl
          exact hcircles ⟨c, .refl, TransGen.head'_iff.mpr ⟨a', hgoes, hto⟩⟩
        · have hlt : (ahead.filter (· ≠ a)).length < ahead.length :=
            List.length_filter_lt_length_iff_exists.mpr ⟨a, hin, by simp⟩
          omega
        · exact fun hcircles' => hcircles (.of_goes hgoes hcircles')

/-- A walk ends unless it goes in a circle. -/
theorem exists_ends_iff [DecidableEq α] : (∃ r, w.Ends a r) ↔ ¬ w.Circles a := by
  constructor
  · rintro ⟨r, hr⟩
    exact hr.not_circles
  · exact fun hcircles => ⟨_, ends_runTo (fun _ => w.mem_known) (Nat.lt_succ_self _) hcircles⟩

/-- To count the steps does not change the result. -/
theorem ends_run [DecidableEq α] (hcircles : ¬ w.Circles a) : w.Ends a (w.run a) :=
  ends_runTo (fun _ => w.mem_known) (Nat.lt_succ_self _) hcircles

theorem Ends.run_eq [DecidableEq α] (h : w.Ends a r) : w.run a = r :=
  (ends_run h.not_circles).eq h

theorem circles_iff [DecidableEq α] : w.Circles a ↔ w.run a = Attempt.trap .endless := by
  constructor
  · exact fun hcircles => hcircles.runTo _
  · intro hrun
    by_contra hcircles
    exact (ends_run hcircles).finishes.ne_trap _ hrun

instance [DecidableEq α] [DecidableEq γ] (w : Walk α β γ) (a : α) : Decidable (w.Circles a) :=
  decidable_of_iff (w.run a = Attempt.trap .endless) circles_iff.symm

end Walk

namespace Hierarchy

variable {h : Hierarchy} {name : String} {m : Method}

/-! ### The walks of a hierarchy -/

/-- From a class to its superclass; the result is the classes, root last. -/
def climb (h : Hierarchy) : Walk String ClassDecl (List ClassDecl) where
  look := h.classNamed
  next := ClassDecl.superclass
  last c := [c]
  more c above := c :: above
  known := h.classes.map ClassDecl.name
  mem_known hc := by
    obtain ⟨hmem, rfl⟩ := mem_of_classNamed hc
    exact List.mem_map_of_mem hmem
  finishes name := by
    rw [classNamed]
    split
    · exact .ok _
    · exact .abi _

theorem classNamed_finishes (h : Hierarchy) (name : String) : (h.classNamed name).Finishes :=
  h.climb.finishes name

theorem declOf_finishes (h : Hierarchy) (m : Method) : (h.declOf m).Finishes := by
  rw [declOf]
  split
  · exact .abi _
  · refine (h.classNamed_finishes _).bind fun c _ => ?_
    split
    · exact .ok _
    · exact .abi _

theorem mem_declared_of_declOf {d : MethodDecl} (hd : h.declOf m = .ok d) :
    ∃ c ∈ h.classes, d ∈ c.methods ∧ d.method = m := by
  obtain ⟨_, c, -, hc, hmem, hm⟩ := mem_of_declOf hd
  exact ⟨c, (mem_of_classNamed hc).1, hmem, hm⟩

/-- From a method to the one that it overrides; the result is the last of them. -/
def trace (h : Hierarchy) : Walk Method MethodDecl Method where
  look := h.declOf
  next := MethodDecl.overrides
  last d := d.method
  more _ base := base
  known := (h.classes.flatMap ClassDecl.methods).map MethodDecl.method
  mem_known hd := by
    obtain ⟨c, hc, hmem, rfl⟩ := mem_declared_of_declOf hd
    exact List.mem_map_of_mem (List.mem_flatMap.mpr ⟨c, hc, hmem⟩)
  finishes := h.declOf_finishes

theorem lineageTo_eq (h : Hierarchy) (steps : Nat) (name : String) :
    h.lineageTo steps name = h.climb.runTo steps name := by
  induction steps generalizing name with
  | zero => rfl
  | succ steps ih =>
    rw [lineageTo, Walk.runTo]
    refine bind_congr fun c => ?_
    cases hc : c.superclass with
    | none =>
      have hnext : h.climb.next c = none := hc
      simp only [hnext]
      rfl
    | some parent =>
      have hnext : h.climb.next c = some parent := hc
      simp only [hnext, ih]
      rfl

theorem introducingTo_eq (h : Hierarchy) (steps : Nat) (m : Method) :
    h.introducingTo steps m = h.trace.runTo steps m := by
  induction steps generalizing m with
  | zero => rfl
  | succ steps ih =>
    rw [introducingTo, Walk.runTo]
    refine bind_congr fun d => ?_
    cases hd : d.overrides with
    | none =>
      have hnext : h.trace.next d = none := hd
      simp only [hnext]
      rfl
    | some base =>
      have hnext : h.trace.next d = some base := hd
      simp only [hnext, ih]
      exact (bind_pure _).symm

/-- The superclasses of a class are what the way up from it gives. -/
theorem ancestry_eq (h : Hierarchy) (name : String) :
    h.ancestry name = List.reverse <$> h.climb.run name := by
  rw [ancestry, lineageTo_eq, Walk.run, map_eq_pure_bind]
  simp [climb]

theorem introducing_eq (h : Hierarchy) (m : Method) : h.introducing m = h.trace.run m := by
  rw [introducing, introducingTo_eq, Walk.run]
  simp [trace, declCount]

/-! ### Questions that walk -/

theorem ancestry_finishes (hname : ¬ h.climb.Circles name) : (h.ancestry name).Finishes := by
  rw [ancestry_eq]
  exact (Walk.ends_run hname).finishes.map _

theorem introducing_finishes (hm : ¬ h.trace.Circles m) : (h.introducing m).Finishes := by
  rw [introducing_eq]
  exact (Walk.ends_run hm).finishes

theorem isResilient_finishes (hname : ¬ h.climb.Circles name) : (h.isResilient name).Finishes :=
  (ancestry_finishes hname).bind fun _ _ => .ok _

/-- No method that a class declares overrides itself, be it by way of others. -/
def OverridesEnd (h : Hierarchy) : Prop :=
  ∀ c ∈ h.classes, ∀ d ∈ c.methods, ¬ h.trace.Circles d.method

/-- No class is its own superclass, be it by way of others. -/
def SuperclassesEnd (h : Hierarchy) : Prop := ∀ c ∈ h.classes, ¬ h.climb.Circles c.name

instance (h : Hierarchy) : Decidable h.OverridesEnd :=
  inferInstanceAs (Decidable (∀ c ∈ h.classes, ∀ d ∈ c.methods, ¬ h.trace.Circles d.method))

instance (h : Hierarchy) : Decidable h.SuperclassesEnd :=
  inferInstanceAs (Decidable (∀ c ∈ h.classes, ¬ h.climb.Circles c.name))

/-- A method that is not declared overrides nothing. -/
theorem OverridesEnd.not_circles (ho : h.OverridesEnd) (m : Method) : ¬ h.trace.Circles m := by
  intro hcircles
  obtain ⟨_, ⟨d, hd, -⟩, -⟩ := hcircles.exists_goes
  obtain ⟨c, hc, hmem, rfl⟩ := mem_declared_of_declOf hd
  exact ho c hc d hmem hcircles

theorem SuperclassesEnd.not_circles (hs : h.SuperclassesEnd) (name : String) :
    ¬ h.climb.Circles name := by
  intro hcircles
  obtain ⟨_, ⟨c, hc, -⟩, -⟩ := hcircles.exists_goes
  obtain ⟨hmem, rfl⟩ := mem_of_classNamed hc
  exact hs c hmem hcircles

theorem OverridesEnd.vtable_finishes (ho : h.OverridesEnd) (hname : ¬ h.climb.Circles name) :
    (h.vtable name).Finishes := by
  refine (ancestry_finishes hname).bind fun ancestry _ => .foldlM (fun t c _ => ?_) _
  refine (Finishes.foldlM (fun es d _ => ?_) t.entries).bind fun es _ => .ok _
  rw [addDecl]
  split
  · exact .ok _
  · exact (introducing_finishes (ho.not_circles d.method)).bind fun base _ => .ok _

theorem OverridesEnd.isOverridden_finishes (ho : h.OverridesEnd) (m : Method) :
    (h.isOverridden m).Finishes := by
  rw [isOverridden]
  induction h.classes.flatMap ClassDecl.methods with
  | nil => exact .ok false
  | cons d rest ih =>
    rw [anyOverrides]
    by_cases hd : d.overrides.isSome = true
    · rw [if_pos hd]
      refine (introducing_finishes (ho.not_circles d.method)).bind fun base _ => ?_
      by_cases hbase : base = m
      · rw [if_pos hbase]
        exact .ok true
      · rwa [if_neg hbase]
    · rwa [if_neg hd]

theorem OverridesEnd.classMethods_finishes (ho : h.OverridesEnd) (name : String) :
    (h.classMethods name).Finishes := by
  refine (h.classNamed_finishes name).bind fun c _ => .mapM fun d _ => ?_
  exact (ho.isOverridden_finishes d.method).bind fun overridden _ => .ok _

/-- The attempt finishes, or else a number is below zero, and some class declares a method of
another. -/
def FinishesIfOwned {α : Type} (h : Hierarchy) (x : Attempt α) : Prop :=
  x.Finishes ∨ (x = Attempt.trap (.overflow .sub) ∧ ¬ h.Owned)

theorem finishesIfOwned_abi {α : Type} (h : Hierarchy) (cause : AbiError) :
    h.FinishesIfOwned (Attempt.abi cause : Attempt α) := .inl (.abi cause)

/-- Where an entry is.  Its number in the own part of a table is below zero only if the entry
is in the inherited part. -/
theorem OverridesEnd.finishesIfOwned_slot (ho : h.OverridesEnd) (hs : h.SuperclassesEnd)
    (m : Method) : h.FinishesIfOwned (h.slot m) := by
  have habi : ∀ cause, h.FinishesIfOwned (Attempt.abi cause : Attempt Slot) :=
    h.finishesIfOwned_abi
  refine (introducing_finishes (ho.not_circles m)).bind_cases habi fun base _ => ?_
  cases howner : base.owner with
  | ofProtocol _ => exact habi _
  | ofClass name =>
    refine (ho.vtable_finishes (hs.not_circles name)).bind_cases habi fun t ht => ?_
    cases hk : t.entries.findIdx? (·.method == base) with
    | none => exact habi _
    | some k =>
      refine (isResilient_finishes (hs.not_circles name)).bind_cases habi fun resilient _ => ?_
      cases resilient with
      | false => exact .inl (.ok _)
      | true =>
        by_cases hle : t.ownStart ≤ k + tableHeaderWords
        · have hsub : Size.sub? (k + tableHeaderWords) t.ownStart
              = some (k + tableHeaderWords - t.ownStart) := by
            rw [Size.sub?_eq_some_iff]
            omega
          rw [subSize, hsub]
          exact .inl (.ok _)
        · have hsub : Size.sub? (k + tableHeaderWords) t.ownStart = none := by
            rw [Option.eq_none_iff_forall_ne_some]
            intro n hn
            rw [Size.sub?_eq_some_iff] at hn
            omega
          rw [subSize, hsub]
          exact .inr ⟨rfl, fun howned => hle (ownStart_le howned ht howner hk)⟩

/-- Which walks along the declarations end, and what they give. -/
structure WalksEnd (h : Hierarchy) : Prop where
  /-- The way up from a class ends unless it comes back to a class that it has passed. -/
  climb : ∀ name, (∃ r, h.climb.Ends name r) ↔ ¬ h.climb.Circles name
  /-- Its result is the ancestry of the class, or why there is none, -/
  ancestry : ∀ name r, h.climb.Ends name r →
    h.ancestry name = List.reverse <$> r ∧ (h.ancestry name).Finishes
  /-- and a circle is told from a long way. -/
  ancestry_endless : ∀ name,
    h.ancestry name = Attempt.trap .endless ↔ h.climb.Circles name
  /-- Overrides lead to an end unless they come back to a method that they have passed. -/
  trace : ∀ m, (∃ r, h.trace.Ends m r) ↔ ¬ h.trace.Circles m
  /-- The result is the method that introduced the entry, or why there is none, -/
  introducing : ∀ m r, h.trace.Ends m r → h.introducing m = r ∧ (h.introducing m).Finishes
  /-- and again a circle is told from a long way. -/
  introducing_endless : ∀ m, h.introducing m = Attempt.trap .endless ↔ h.trace.Circles m
  isResilient : ∀ name, ¬ h.climb.Circles name → (h.isResilient name).Finishes
  vtable : ∀ name, ¬ h.climb.Circles name → h.OverridesEnd → (h.vtable name).Finishes
  classMethods : ∀ name, h.OverridesEnd → (h.classMethods name).Finishes
  slot : ∀ m, h.SuperclassesEnd → h.OverridesEnd → h.FinishesIfOwned (h.slot m)

/-- Whatever is declared: the walks end that do not go in a circle. -/
theorem walksEnd (h : Hierarchy) : h.WalksEnd where
  climb _ := Walk.exists_ends_iff
  ancestry name r hr := by
    refine ⟨?_, ancestry_finishes hr.not_circles⟩
    rw [ancestry_eq, hr.run_eq]
  ancestry_endless name := by
    constructor
    · intro hendless
      by_contra hcircles
      exact (ancestry_finishes hcircles).ne_trap _ hendless
    · intro hcircles
      rw [ancestry_eq, Walk.circles_iff.mp hcircles]
      rfl
  trace _ := Walk.exists_ends_iff
  introducing m r hr := by
    refine ⟨?_, introducing_finishes hr.not_circles⟩
    rw [introducing_eq, hr.run_eq]
  introducing_endless m := by rw [introducing_eq, Walk.circles_iff]
  isResilient _ := isResilient_finishes
  vtable _ hname ho := ho.vtable_finishes hname
  classMethods name ho := ho.classMethods_finishes name
  slot m hs ho := ho.finishesIfOwned_slot hs m

end Hierarchy

/-! ### Declarations that do and do not end -/

namespace Wheels

/-- A method of a class, without parameters. -/
def method (owner selector : String) : Method where
  module := "wheels"
  owner := .ofClass owner
  selector := selector
  kind := .onInstance
  signature := {
    convention := .ordinary, generics := {}, selfType := 0, params := [], result := 0,
    error := none }

/-- A gear turns in its own way, and has teeth. -/
def geared : Hierarchy where
  module := "wheels"
  classes := [
    { name := "Wheel", superclass := none, resilient := true,
      methods := [⟨method "Wheel" "turn", "turn", .isPublic, none⟩] },
    { name := "Gear", superclass := some "Wheel", resilient := true,
      methods := [⟨method "Gear" "turn", "gear_turn", .isPublic, some (method "Wheel" "turn")⟩,
        ⟨method "Gear" "teeth", "teeth", .isPublic, none⟩] }]

/-- Nothing here goes in a circle, so the entry of every method can be asked for. -/
theorem walksEnd_geared :
    (geared.vtable "Gear").Finishes ∧ (geared.slot (method "Gear" "turn")).Finishes := by
  have hoverrides : geared.OverridesEnd := by decide +kernel
  have howned : geared.Owned := by decide +kernel
  refine ⟨geared.walksEnd.vtable "Gear" (by decide +kernel) hoverrides, ?_⟩
  rcases geared.walksEnd.slot (method "Gear" "turn") (by decide +kernel) hoverrides with
    hfinishes | ⟨-, hnot⟩
  · exact hfinishes
  · exact absurd howned hnot

/-- A class that is its own superclass, and whose method overrides itself. -/
def spinning : Hierarchy where
  module := "wheels"
  classes := [
    { name := "Top", superclass := some "Top", resilient := false,
      methods := [⟨method "Top" "spin", "spin", .isPublic, some (method "Top" "spin")⟩] }]

/-- A wheel that declares a method of its axle. -/
def crossed : Hierarchy where
  module := "wheels"
  classes := [
    { name := "Wheel", superclass := none, resilient := true,
      methods := [⟨method "Axle" "turn", "turn", .isPublic, none⟩] },
    { name := "Axle", superclass := some "Wheel", resilient := true,
      methods := [⟨method "Axle" "turn", "axle_turn", .isPublic, none⟩] }]

/-- Neither of the walks from the class and from the method ends, with whatever result; and
where a class declares a method that it does not own, an entry has a number below zero. -/
theorem walks_without_end :
    (¬ ∃ r, spinning.climb.Ends "Top" r) ∧
      (¬ ∃ r, spinning.trace.Ends (method "Top" "spin") r) ∧
      ¬ (crossed.slot (method "Axle" "turn")).Finishes := by
  refine ⟨?_, ?_, ?_⟩
  · rw [Walk.exists_ends_iff, not_not]
    decide +kernel
  · rw [Walk.exists_ends_iff, not_not]
    decide +kernel
  · have hslot : crossed.slot (method "Axle" "turn") = Attempt.trap (.overflow .sub) := by
      decide +kernel
    exact fun hfinishes => hfinishes.ne_trap _ hslot

end Wheels

end Dispatch
