import Mathlib.Data.List.Nodup
import Dispatch.Proofs.Registry

/-!
# Entries are written once

A registry is asked to declare keys and to define their entries, in any order, again and
again, and with closures that may fail.  Through all of this the entry of a key stays what
it was first declared to be, and its body what it was first defined to be: what has been
written is never asked for again.  The registry is a record of the closures that ran, and
of nothing else.

## Main definitions

* `Registry.Request`, `Registry.after` — requests, and what they make of a registry.
* `Registry.runs`, `Registry.ran` — the closures that run on the way.
* `Registry.Turn` — everything that one request can do.
* `Registry.Recorded` — a registry holds what the closures that ran have said.

## Main results

* `Registry.turn`, `Registry.Recorded.turn` — one request.
* `Registry.keeps_after`, `Registry.recorded_after` — any number of them.
* `Registry.writes_once` — what a registry promises at every point of a run.
-/

namespace Dispatch

/-- A value that is replaced keeps its place. -/
theorem Table.entries_insert_of_some {κ υ : Type} [DecidableEq κ] {t : Table κ υ} {k : κ} {v : υ}
    (h : t.get? k = some v) (v' : υ) :
    ∃ before rest, t.entries = before ++ (k, v) :: rest ∧
      (t.insert k v').entries = before ++ (k, v') :: rest := by
  have key : ∀ l : List (κ × υ), lookup k l = some v →
      ∃ before rest, l = before ++ (k, v) :: rest ∧ put k v' l = before ++ (k, v') :: rest := by
    intro l
    induction l with
    | nil => intro h; cases h
    | cons p rest ih =>
      intro h
      rw [lookup] at h
      split at h
      · next hk =>
        cases h
        exact ⟨[], rest, by rw [← hk, List.nil_append], by rw [put, if_pos hk, List.nil_append]⟩
      · next hk =>
        obtain ⟨before, rest', hl, hput⟩ := ih h
        exact ⟨p :: before, rest', by rw [hl, List.cons_append],
          by rw [put, if_neg hk, hput, List.cons_append]⟩
  exact key _ h

namespace Registry

variable {κ δ ε : Type} [DecidableEq κ] {r r' : Registry κ δ} {key : κ} {entry : Entry δ}
  {f : Function} {e : ε}

/-! ### Requests -/

/-- A request, with what its closure says if it is run: a symbol and a declaration, or a
body, or a failure. -/
inductive Request (κ δ ε : Type) where
  | declare (key : κ) (make : Except ε (String × δ))
  | define (key : κ) (emit : Except ε Function)

namespace Request

/-- The key, symbol and declaration of a successful declaration. -/
def heading? : Request κ δ ε → Option (κ × String × δ)
  | declare key (.ok (symbol, declaration)) => some (key, symbol, declaration)
  | _ => none

/-- A request for a body. -/
def isEmit : Request κ δ ε → Bool
  | define _ _ => true
  | declare _ _ => false

/-- A request for a body, with a closure that fails. -/
def isFailedEmit : Request κ δ ε → Bool
  | define _ (.error _) => true
  | _ => false

end Request

/-- The registry after a request.  A declaration that fails leaves the old one. -/
def serve (r : Registry κ δ) : Request κ δ ε → Registry κ δ
  | .declare key make =>
    match r.declare key make with
    | .ok (_, r') => r'
    | .error _ => r
  | .define key emit => (r.define key emit).2

/-- The registry after some requests, one after the other; some may have failed. -/
def after (r : Registry κ δ) (requests : List (Request κ δ ε)) : Registry κ δ :=
  requests.foldl serve r

/-- The closure of a request is run: if it were one that fails, the request would fail.
There is nothing to run for a key that has no entry to define. -/
def runs (r : Registry κ δ) : Request κ δ ε → Bool
  | .declare key _ => !(r.declare key (.error () : Except Unit _)).isOk
  | .define key _ => (r.get? key).isSome && !(r.define key (.error () : Except Unit _)).1.isOk

/-- The requests whose closures run, in the order in which they do. -/
def ran (r : Registry κ δ) : List (Request κ δ ε) → List (Request κ δ ε)
  | [] => []
  | q :: rest => (if r.runs q then [q] else []) ++ ran (r.serve q) rest

variable {q : Request κ δ ε} {requests log : List (Request κ δ ε)}

theorem runs_declare {make : Except ε (String × δ)} :
    r.runs (.declare key make) = true ↔ r.get? key = none := by
  rw [runs]
  cases hkey : r.get? key with
  | none =>
    rw [declare_error_of_none hkey]
    exact iff_of_true rfl rfl
  | some entry =>
    rw [declare_of_some hkey]
    exact iff_of_false nofun nofun

theorem runs_define {emit : Except ε Function} :
    r.runs (.define key emit) = true ↔ ∃ entry, r.get? key = some entry ∧ entry.body = none := by
  rw [runs]
  cases hkey : r.get? key with
  | none =>
    apply iff_of_false
    · exact nofun
    · rintro ⟨entry, hentry, -⟩
      cases hentry
  | some entry =>
    cases hbody : entry.body with
    | none =>
      rw [define_error hkey hbody]
      exact iff_of_true rfl ⟨entry, rfl, hbody⟩
    | some f =>
      rw [define_of_body hkey hbody]
      apply iff_of_false
      · exact nofun
      · rintro ⟨entry', hentry', hnone⟩
        cases hentry'
        rw [hbody] at hnone
        cases hnone

/-- A closure that runs does so at some point of the run. -/
theorem exists_runs_of_mem_ran (h : q ∈ r.ran requests) :
    ∃ earlier : List (Request κ δ ε), (r.after earlier).runs q = true := by
  induction requests generalizing r with
  | nil => cases h
  | cons q' rest ih =>
    rw [ran, List.mem_append] at h
    rcases h with h | h
    · refine ⟨[], ?_⟩
      split at h
      · next hruns =>
        rw [List.mem_singleton] at h
        exact h ▸ hruns
      · cases h
    · obtain ⟨earlier, hearlier⟩ := ih h
      exact ⟨q' :: earlier, hearlier⟩

/-! ### What one request does -/

/-- What a request makes of a registry, and which closure runs for it. -/
inductive Turn (r : Registry κ δ) :
    Request κ δ ε → Registry κ δ → List (Request κ δ ε) → Prop
  /-- What is asked for is already there. -/
  | idle {q : Request κ δ ε} : Turn r q r []
  | undeclared {key : κ} {e : ε} (hkey : r.get? key = none) :
    Turn r (.declare key (.error e)) r [.declare key (.error e)]
  | declared {key : κ} {symbol : String} {declaration : δ} (hkey : r.get? key = none) :
    Turn r (.declare key (.ok (symbol, declaration)))
      (r.add key { symbol, declaration }) [.declare key (.ok (symbol, declaration))]
  | undefined {key : κ} {entry : Entry δ} {e : ε} (hkey : r.get? key = some entry)
    (hbody : entry.body = none) :
    Turn r (.define key (.error e)) r.start [.define key (.error e)]
  | defined {key : κ} {entry : Entry δ} {f : Function} (hkey : r.get? key = some entry)
    (hbody : entry.body = none) :
    Turn r (.define key (.ok f)) (r.start.fill key f) [.define key (.ok f)]

theorem turn (r : Registry κ δ) (q : Request κ δ ε) :
    r.Turn q (r.serve q) (if r.runs q then [q] else []) := by
  cases q with
  | declare key make =>
    cases hkey : r.get? key with
    | some entry =>
      rw [serve, declare_of_some hkey, if_neg fun hruns => by
        cases hkey.symm.trans (runs_declare.mp hruns)]
      exact .idle
    | none =>
      rw [serve, if_pos (runs_declare.mpr hkey)]
      cases make with
      | error e =>
        rw [declare_error_of_none hkey]
        exact .undeclared hkey
      | ok made =>
        rw [declare_of_none hkey made.1 made.2]
        exact .declared hkey
  | define key emit =>
    cases hkey : r.get? key with
    | none =>
      have hruns : ¬ r.runs (.define key emit : Request κ δ ε) = true := fun hruns => by
        obtain ⟨entry, hentry, -⟩ := runs_define.mp hruns
        cases hkey.symm.trans hentry
      rw [serve, define, hkey, if_neg hruns]
      exact .idle
    | some entry =>
      cases hbody : entry.body with
      | some f =>
        have hruns : ¬ r.runs (.define key emit : Request κ δ ε) = true := fun hruns => by
          obtain ⟨entry', hentry', hnone⟩ := runs_define.mp hruns
          cases hkey.symm.trans hentry'
          cases hbody.symm.trans hnone
        rw [serve, define_of_body hkey hbody, if_neg hruns]
        exact .idle
      | none =>
        rw [serve, if_pos (runs_define.mpr ⟨entry, hkey, hbody⟩)]
        cases emit with
        | error e =>
          rw [define_error hkey hbody]
          exact .undefined hkey hbody
        | ok f =>
          rw [define_ok hkey hbody]
          exact .defined hkey hbody

/-! ### What is written stays -/

/-- What an entry said it still says. -/
structure Stays (entry entry' : Entry δ) : Prop where
  symbol : entry'.symbol = entry.symbol
  declaration : entry'.declaration = entry.declaration
  body : ∀ f, entry.body = some f → entry'.body = some f

/-- Every key that had an entry still has it. -/
def Keeps (r r' : Registry κ δ) : Prop :=
  ∀ key entry, r.get? key = some entry → ∃ entry', r'.get? key = some entry' ∧ Stays entry entry'

theorem Keeps.refl (r : Registry κ δ) : r.Keeps r := fun _ entry hkey =>
  ⟨entry, hkey, rfl, rfl, fun _ hbody => hbody⟩

theorem Keeps.trans {r'' : Registry κ δ} (h : r.Keeps r') (h' : r'.Keeps r'') : r.Keeps r'' := by
  intro key entry hkey
  obtain ⟨entry₁, hkey₁, h₁⟩ := h key entry hkey
  obtain ⟨entry₂, hkey₂, h₂⟩ := h' key entry₁ hkey₁
  exact ⟨entry₂, hkey₂, h₂.symbol.trans h₁.symbol, h₂.declaration.trans h₁.declaration,
    fun f hbody => h₂.body f (h₁.body f hbody)⟩

/-- Only an entry that says the same may take the place of another. -/
theorem keeps_insert {new : Entry δ} (hview : r'.view = r.view.insert key new)
    (h : ∀ old, r.get? key = some old → Stays old new) : r.Keeps r' := by
  intro key' entry' hkey'
  rw [get?_of_view hview]
  by_cases heq : key = key'
  · subst heq
    exact ⟨new, if_pos rfl, h entry' hkey'⟩
  · rw [if_neg heq]
    exact Keeps.refl r key' entry' hkey'

theorem Turn.keeps (h : r.Turn q r' log) : r.Keeps r' := by
  cases h with
  | idle => exact .refl r
  | undeclared hkey => exact .refl r
  | declared hkey =>
    apply keeps_insert (view_add hkey _)
    intro old hold
    cases hkey.symm.trans hold
  | undefined hkey hbody => exact fun key entry hentry => Keeps.refl r key entry hentry
  | defined hkey hbody =>
    apply keeps_insert (view_start_fill hkey _)
    intro old hold
    cases hkey.symm.trans hold
    refine ⟨rfl, rfl, fun f hf => ?_⟩
    cases hbody.symm.trans hf

/-- Through any requests, every entry stays what it was. -/
theorem keeps_after (r : Registry κ δ) (requests : List (Request κ δ ε)) :
    r.Keeps (r.after requests) := by
  induction requests generalizing r with
  | nil => exact .refl r
  | cons q rest ih => exact (r.turn q).keeps.trans (ih (r.serve q))

/-- A key that has an entry is not declared again. -/
theorem declare_notMem_ran (hkey : r.get? key = some entry) (make : Except ε (String × δ)) :
    .declare key make ∉ r.ran requests := by
  intro hmem
  obtain ⟨earlier, hruns⟩ := exists_runs_of_mem_ran hmem
  obtain ⟨entry', hkey', -⟩ := r.keeps_after earlier key entry hkey
  cases hkey'.symm.trans (runs_declare.mp hruns)

/-- An entry that has a body is not defined again. -/
theorem define_notMem_ran (hkey : r.get? key = some entry) (hbody : entry.body = some f)
    (emit : Except ε Function) : .define key emit ∉ r.ran requests := by
  intro hmem
  obtain ⟨earlier, hruns⟩ := exists_runs_of_mem_ran hmem
  obtain ⟨entry', hkey', hstays⟩ := r.keeps_after earlier key entry hkey
  obtain ⟨entry'', hkey'', hnone⟩ := runs_define.mp hruns
  cases hkey'.symm.trans hkey''
  cases (hstays.body f hbody).symm.trans hnone

/-! ### The bodies -/

/-- The body of a key, if it has one. -/
def body? (r : Registry κ δ) (key : κ) : Option Function := (r.get? key).bind Entry.body

theorem body?_eq_some :
    r.body? key = some f ↔ ∃ entry, r.get? key = some entry ∧ entry.body = some f :=
  Option.bind_eq_some_iff

/-- The keys that have a body, in the order of their declaration. -/
def definedKeys (r : Registry κ δ) : List κ :=
  (r.view.entries.filter (·.2.body.isSome)).map (·.1)

omit [DecidableEq κ] in
theorem nodup_definedKeys (hnodup : r.view.keys.Nodup) : r.definedKeys.Nodup :=
  hnodup.sublist (List.filter_sublist.map _)

theorem mem_definedKeys (hnodup : r.view.keys.Nodup) :
    key ∈ r.definedKeys ↔ (r.body? key).isSome = true := by
  rw [definedKeys, List.mem_map]
  constructor
  · rintro ⟨⟨key, entry⟩, hmem, rfl⟩
    obtain ⟨hentry, hbody⟩ := List.mem_filter.mp hmem
    rw [body?, get?_eq, Table.get?_of_mem hnodup hentry]
    exact hbody
  · intro hbody
    obtain ⟨f, hf⟩ := Option.isSome_iff_exists.mp hbody
    obtain ⟨entry, hkey, hentry⟩ := body?_eq_some.mp hf
    refine ⟨(key, entry), List.mem_filter.mpr ⟨mem_view hkey, ?_⟩, rfl⟩
    rw [hentry]
    rfl

/-- There is one body for each key that has one. -/
theorem map_some_bodies (hnodup : r.view.keys.Nodup) :
    r.bodies.map some = r.definedKeys.map r.body? := by
  have key : ∀ l : List (κ × Entry δ), (∀ p ∈ l, r.body? p.1 = p.2.body) →
      ((l.map (·.2)).filterMap Entry.body).map some
        = ((l.filter (·.2.body.isSome)).map (·.1)).map r.body? := by
    intro l hl
    induction l with
    | nil => rfl
    | cons p rest ih =>
      have hrest := ih fun p' hp' => hl p' (List.mem_cons_of_mem _ hp')
      have hp := hl p List.mem_cons_self
      rw [List.map_cons, List.filterMap_cons, List.filter_cons]
      cases hbody : p.2.body with
      | none => exact hrest
      | some f =>
        rw [hbody] at hp
        simp only [Option.isSome_some, if_true, List.map_cons, hp, hrest]
  rw [bodies_eq]
  refine key r.view.entries fun p hp => ?_
  rw [body?, get?_eq, Table.get?_of_mem hnodup hp, Option.bind_some]

/-- When an entry gets its body, there is one body more. -/
theorem length_bodies_fill (hkey : r.get? key = some entry) (hbody : entry.body = none)
    (f : Function) : (r.start.fill key f).bodies.length = r.bodies.length + 1 := by
  obtain ⟨before, rest, hold, hnew⟩ :=
    Table.entries_insert_of_some (r.get?_eq key ▸ hkey) { entry with body := some f }
  rw [bodies_eq, bodies_eq, view_start_fill hkey, Table.values, Table.values, hold, hnew]
  simp [hbody]
  omega

/-! ### The registry as a record -/

/-- The registry holds what the closures that ran have said. -/
structure Recorded (log : List (Request κ δ ε)) (r : Registry κ δ) : Prop where
  nodup : r.view.keys.Nodup
  /-- The entries are the successful declarations, in their order. -/
  declared : r.view.entries.map (fun p => (p.1, p.2.symbol, p.2.declaration)) =
    log.filterMap Request.heading?
  /-- The bodies are those that were made. -/
  defined : ∀ key f, .define key (.ok f) ∈ log ↔ r.body? key = some f
  emitted : r.emitted = log.countP Request.isEmit
  /-- A body that was started was finished, or else its closure failed. -/
  finished : r.emitted = r.bodies.length + log.countP Request.isFailedEmit

theorem Recorded.start : Recorded ([] : List (Request κ δ ε)) (empty : Registry κ δ) where
  nodup := List.nodup_nil
  declared := rfl
  defined _ _ := iff_of_false List.not_mem_nil nofun
  emitted := rfl
  finished := rfl

theorem body?_insert {new : Entry δ} (hview : r'.view = r.view.insert key new) (key' : κ) :
    r'.body? key' = if key = key' then new.body else r.body? key' := by
  rw [body?, get?_of_view hview]
  split <;> rfl

/-- An entry that was declared is put on record. -/
theorem Recorded.declare (h : Recorded log r) {symbol : String} {declaration : δ}
    (hkey : r.get? key = none) :
    Recorded (log ++ [.declare key (.ok (symbol, declaration))])
      (r.add key { symbol, declaration }) := by
  have hview := view_add hkey { symbol, declaration }
  have hentries := Table.entries_insert_of_none (v := ({ symbol, declaration } : Entry δ))
    (r.get?_eq key ▸ hkey)
  rw [← hview] at hentries
  refine ⟨hview ▸ Table.nodup_keys_insert h.nodup, ?_, fun key' f => ?_, ?_, ?_⟩
  · rw [List.filterMap_append, ← h.declared, hentries, List.map_append]
    rfl
  · rw [body?_insert hview, List.mem_append, h.defined]
    split
    · next heq =>
      -- a key without an entry has no body
      subst heq
      simp [body?, hkey]
    · simp
  · rw [List.countP_append, ← h.emitted, emitted_add]
    rfl
  · rw [List.countP_append, bodies_eq, Table.values, hentries, List.map_append,
      List.filterMap_append, List.length_append, emitted_add, h.finished, bodies_eq]
    rfl

/-- A body that was made is put on record. -/
theorem Recorded.define (h : Recorded log r) (hkey : r.get? key = some entry)
    (hbody : entry.body = none) (f : Function) :
    Recorded (log ++ [.define key (.ok f)]) (r.start.fill key f) := by
  have hview := view_start_fill hkey f
  refine ⟨hview ▸ Table.nodup_keys_insert h.nodup, ?_, fun key' f' => ?_, ?_, ?_⟩
  · obtain ⟨before, rest, hold, hnew⟩ :=
      Table.entries_insert_of_some (r.get?_eq key ▸ hkey) { entry with body := some f }
    rw [List.filterMap_append, ← h.declared, hview, hold, hnew]
    simp [Request.heading?]
  · rw [body?_insert hview, List.mem_append, h.defined, List.mem_singleton]
    split
    · next heq =>
      -- the key had no body before, so this one is the only one
      subst heq
      have hold : r.body? key = none := by rw [body?, hkey, Option.bind_some, hbody]
      simp [hold, eq_comm]
    · next hne => simp [Ne.symm hne]
  · rw [List.countP_append, ← h.emitted, emitted_fill, emitted_start]
    rfl
  · rw [List.countP_append, emitted_fill, emitted_start, length_bodies_fill hkey hbody,
      h.finished, Nat.add_right_comm]
    rfl

/-- One request: the closure that runs, if there is one, is put on record. -/
theorem Recorded.turn {more : List (Request κ δ ε)} (h : Recorded log r)
    (ht : r.Turn q r' more) : Recorded (log ++ more) r' := by
  cases ht with
  | idle =>
    rw [List.append_nil]
    exact h
  | undeclared hkey =>
    refine ⟨h.nodup, ?_, fun key f => ?_, ?_, ?_⟩
    · rw [List.filterMap_append, h.declared]
      exact (List.append_nil _).symm
    · simp [h.defined]
    · rw [List.countP_append, ← h.emitted]
      rfl
    · rw [List.countP_append, ← Nat.add_assoc, ← h.finished]
      rfl
  | declared hkey => exact h.declare hkey
  | @undefined key entry e hkey hbody =>
    refine ⟨h.nodup, ?_, fun key' f => ?_, ?_, ?_⟩
    · rw [view_start, List.filterMap_append, h.declared]
      exact (List.append_nil _).symm
    · rw [List.mem_append, h.defined]
      refine or_iff_left fun hmem => ?_
      cases List.mem_singleton.mp hmem
    · rw [List.countP_append, ← h.emitted, emitted_start]
      rfl
    · rw [List.countP_append, ← Nat.add_assoc, emitted_start, h.finished]
      rfl
  | defined hkey hbody => exact h.define hkey hbody _

/-- Any number of requests. -/
theorem Recorded.after (h : Recorded log r) (requests : List (Request κ δ ε)) :
    Recorded (log ++ r.ran requests) (r.after requests) := by
  induction requests generalizing r log with
  | nil =>
    rw [ran, List.append_nil]
    exact h
  | cons q rest ih =>
    rw [ran, ← List.append_assoc]
    exact ih (h.turn (r.turn q))

theorem recorded_after (requests : List (Request κ δ ε)) :
    Recorded (Registry.ran empty requests) (Registry.after (empty : Registry κ δ) requests) :=
  Recorded.start.after requests

/-- The first key that was declared with a symbol. -/
def firstKey? (log : List (Request κ δ ε)) (symbol : String) : Option κ :=
  ((log.filterMap Request.heading?).find? (·.2.1 == symbol)).map (·.1)

/-- The index by symbols leads to the entry of the first key with the symbol, with the body
that this entry has by now. -/
theorem Recorded.bySymbol? (h : Recorded log r) (symbol : String) :
    r.bySymbol? symbol = (firstKey? log symbol).bind r.get? := by
  rw [firstKey?, ← h.declared, bySymbol?_eq, Table.values, List.find?_map, List.find?_map,
    Option.map_map]
  have hpred : ((fun entry : Entry δ => entry.symbol == symbol) ∘ fun p : κ × Entry δ => p.2) =
      (fun heading : κ × String × δ => heading.2.1 == symbol) ∘
        fun p : κ × Entry δ => (p.1, p.2.symbol, p.2.declaration) := rfl
  rw [hpred]
  generalize hfound : r.view.entries.find? _ = found
  cases found with
  | none => rfl
  | some p => exact (get?_of_mem_view h.nodup (List.mem_of_find?_eq_some hfound)).symm

theorem Recorded.exists_of_firstKey? (h : Recorded log r) {symbol : String}
    (hfirst : firstKey? log symbol = some key) : ∃ entry, r.get? key = some entry := by
  rw [firstKey?, ← h.declared, Option.map_eq_some_iff] at hfirst
  obtain ⟨heading, hfound, rfl⟩ := hfirst
  obtain ⟨p, hp, rfl⟩ := List.mem_map.mp (List.mem_of_find?_eq_some hfound)
  exact ⟨p.2, get?_of_mem_view h.nodup hp⟩

/-! ### The promise -/

/-- What a registry `r`, in which the closures of `log` have run, promises for any requests
that follow. -/
structure WritesOnce (log : List (Request κ δ ε)) (r : Registry κ δ)
    (more : List (Request κ δ ε)) : Prop extends Recorded log r where
  /-- The symbol and the declaration of an entry never change, and no closure is run to
  declare it again. -/
  declaration : ∀ key entry, r.get? key = some entry →
    (∃ entry', (r.after more).get? key = some entry' ∧ entry'.symbol = entry.symbol ∧
      entry'.declaration = entry.declaration ∧ ∀ make : Except ε (String × δ),
        (r.after more).declare key make = .ok (entry', r.after more)) ∧
    ∀ make, .declare key make ∉ r.ran more
  /-- A declaration that fails changes nothing. -/
  undeclared : ∀ key (e : ε), r.serve (.declare key (.error e)) = r ∧
    (r.get? key = none → r.declare key (.error e) = .error e)
  /-- A body never changes, and no closure is run to make it again. -/
  body : ∀ key entry f, r.get? key = some entry → entry.body = some f →
    (∃ entry', (r.after more).get? key = some entry' ∧ entry'.body = some f ∧
      ∀ emit : Except ε Function, (r.after more).define key emit = (.ok f, r.after more)) ∧
    ∀ emit, .define key emit ∉ r.ran more
  /-- An entry whose body could not be made is as it was, and can be defined later. -/
  undefined : ∀ key entry (e : ε), r.get? key = some entry → entry.body = none →
    (r.define key (.error e)).1 = .error e ∧
    (r.serve (.define key (.error e))).get? key = some entry ∧
    ∀ f, ((r.serve (.define key (.error e))).define key (.ok f : Except ε _)).1 = .ok f ∧
      ((r.serve (.define key (.error e))).serve (.define key (.ok f : Except ε _))).get? key =
        some { entry with body := some f }
  /-- The counter counts the closures that were started. -/
  count : r.emitted = r.definedKeys.length + log.countP Request.isFailedEmit
  /-- There is one body for each key that has one. -/
  bodies : r.definedKeys.Nodup ∧
    (∀ key, key ∈ r.definedKeys ↔ ∃ entry, r.get? key = some entry ∧ entry.body.isSome = true) ∧
    r.bodies.map some = r.definedKeys.map r.body?
  /-- A symbol leads to the entry of the first key that was declared with it. -/
  bySymbol : ∀ symbol,
    (firstKey? log symbol = none → r.bySymbol? symbol = none) ∧
    ∀ key, firstKey? log symbol = some key →
      ∃ entry, r.get? key = some entry ∧ r.bySymbol? symbol = some entry

/-- At every point of a run, whatever was asked before and whatever is asked next, and
whichever closures fail: entries are written once. -/
theorem writes_once (before more : List (Request κ δ ε)) :
    WritesOnce (Registry.ran empty before) (Registry.after (empty : Registry κ δ) before) more := by
  have hlog : Recorded (Registry.ran empty before) (Registry.after (empty : Registry κ δ) before) :=
    recorded_after before
  generalize Registry.after (empty : Registry κ δ) before = r at hlog
  refine { hlog with
    declaration := fun key entry hkey => ⟨?_, declare_notMem_ran hkey⟩
    undeclared := fun key e => ?_
    body := fun key entry f hkey hbody => ⟨?_, define_notMem_ran hkey hbody⟩
    undefined := fun key entry e hkey hbody => ?_
    count := ?_
    bodies := ⟨nodup_definedKeys hlog.nodup, fun key => ?_, map_some_bodies hlog.nodup⟩
    bySymbol := fun symbol => ?_ }
  · obtain ⟨entry', hkey', hstays⟩ := r.keeps_after more key entry hkey
    exact ⟨entry', hkey', hstays.symbol, hstays.declaration, declare_of_some hkey'⟩
  · cases hkey : r.get? key with
    | some entry =>
      rw [serve, declare_of_some hkey]
      exact ⟨rfl, nofun⟩
    | none =>
      rw [serve, declare_error_of_none hkey]
      exact ⟨rfl, fun _ => rfl⟩
  · obtain ⟨entry', hkey', hstays⟩ := r.keeps_after more key entry hkey
    have hbody' := hstays.body f hbody
    exact ⟨entry', hkey', hbody', define_of_body hkey' hbody'⟩
  · rw [serve, define_error hkey hbody]
    refine ⟨rfl, hkey, fun f => ?_⟩
    -- the counter alone has changed, so the entry is found and still has no body
    have hkey' : r.start.get? key = some entry := hkey
    rw [serve, define_ok hkey' hbody]
    exact ⟨rfl, get?_start_fill hkey' f⟩
  · have hlength := congrArg List.length (map_some_bodies hlog.nodup)
    rw [List.length_map, List.length_map] at hlength
    rw [hlog.finished, hlength]
  · rw [mem_definedKeys hlog.nodup, body?, Option.isSome_bind, Option.any_eq_true]
  · rw [hlog.bySymbol?]
    constructor
    · intro hfirst
      rw [hfirst, Option.bind_none]
    · intro key hfirst
      obtain ⟨entry, hkey⟩ := hlog.exists_of_firstKey? hfirst
      exact ⟨entry, hkey, by rw [hfirst, Option.bind_some, hkey]⟩

end Registry

end Dispatch
