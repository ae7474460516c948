import Dispatch.Proofs.Symbols
import Dispatch.Proofs.Types

/-!
# Reading symbols

The parts of a symbol are free of its separator, so they can be told apart.  The letters
of a type are read from left to right: the first one says what follows, a number goes on
as long as there are digits, and a name is as long as the number before it.  So types can
be read back, as long as no name begins with a digit: then the number before the name
would seem to go on.

## Main definitions

* `Symbol.startsWithDigit`, `Ty.Readable`, `Method.Readable` — names that can be told from
  their lengths.
* `Ty.lead` — the letter that a type begins with.
* `Symbol.IsParts` — the parts of a symbol.

## Main results

* `Ty.codes_append_inj` — types can be read back from their letters.
* `Pool.tree_inj` — different types of a pool are different when written out.
* `Method.typesCode_inj` — so can the types of a method.
* `Symbol.ofParts_inj` — a symbol can be cut into its parts in one way.
-/

namespace Dispatch

open Attempt

namespace Symbol

/-! ### Cutting a text -/

/-- There is one way to cut a text where a run of letters ends. -/
theorem append_inj_of_stop {P : Char → Bool} {a a' r r' : List Char}
    (ha : ∀ c ∈ a, P c = true) (ha' : ∀ c ∈ a', P c = true)
    (hr : ∀ c ∈ r.head?, P c = false) (hr' : ∀ c ∈ r'.head?, P c = false)
    (h : a ++ r = a' ++ r') : a = a' ∧ r = r' := by
  have hstop : ∀ {r : List Char}, (∀ c ∈ r.head?, P c = false) → r.takeWhile P = [] := by
    intro r hr
    cases r with
    | nil => rfl
    | cons c r => rw [List.takeWhile_cons, hr c rfl]; rfl
  have htake := congrArg (List.takeWhile P) h
  rw [List.takeWhile_append_of_pos ha, List.takeWhile_append_of_pos ha', hstop hr, hstop hr',
    List.append_nil, List.append_nil] at htake
  subst htake
  exact ⟨rfl, List.append_cancel_left h⟩

/-- The text does not go on with a digit. -/
def StopsNumber (r : List Char) : Prop := ∀ c ∈ r.head?, c.isDigit = false

theorem isDigit_of_mem_decimal {n : Nat} {c : Char} (h : c ∈ decimal n) : c.isDigit = true :=
  Nat.isDigit_of_mem_toDigits (by decide) (by decide) h

theorem decimal_injective {n n' : Nat} (h : decimal n = decimal n') : n = n' := by
  have hvalue := congrArg (fun ds => Nat.ofDigitChars 10 ds 0) h
  simpa only [decimal, Nat.ofDigitChars_ten_toDigits] using hvalue

/-- A number ends where the digits end. -/
theorem decimal_append_inj {n n' : Nat} {r r' : List Char} (hr : StopsNumber r)
    (hr' : StopsNumber r') (h : decimal n ++ r = decimal n' ++ r') : n = n' ∧ r = r' := by
  obtain ⟨hn, hrest⟩ := append_inj_of_stop (fun _ => isDigit_of_mem_decimal)
    (fun _ => isDigit_of_mem_decimal) hr hr' h
  exact ⟨decimal_injective hn, hrest⟩

/-! ### Names -/

/-- Does the name begin with an ASCII digit? -/
def startsWithDigit (name : String) : Bool := name.toList.head?.any Char.isDigit

theorem bytesOf_eq (name : String) : bytesOf name = name.toList.flatMap String.utf8EncodeChar := by
  rw [bytesOf, String.toUTF8, ← String.utf8Encode_toList, List.utf8Encode, List.data_toByteArray]

/-- A byte that is written as a digit is one. -/
theorem not_digit_of_escapeByte {b : UInt8} (h : ¬ (48 ≤ b.toNat ∧ b.toNat ≤ 57)) :
    StopsNumber (escapeByte b) := by
  have hall : ∀ n < 256, (escapeByte (UInt8.ofNat n)).head?.any Char.isDigit = true →
      48 ≤ n ∧ n ≤ 57 := by decide +kernel
  intro c hc
  by_cases hdigit : c.isDigit = true
  · refine absurd (hall b.toNat b.toNat_lt ?_) h
    rw [UInt8.ofNat_toNat, Option.mem_def.mp hc, Option.any_some, hdigit]
  · exact Bool.eq_false_iff.mpr hdigit

theorem escapeByte_ne_nil (b : UInt8) : escapeByte b ≠ [] := by
  unfold escapeByte
  split <;> exact List.cons_ne_nil _ _

theorem StopsNumber.append {a r : List Char} (h : StopsNumber a) (hr : StopsNumber r) :
    StopsNumber (a ++ r) := by
  cases a with
  | nil => exact hr
  | cons c a => exact h

theorem isDigit_eq_false_iff {c : Char} :
    c.isDigit = false ↔ ¬ (48 ≤ c.val.toNat ∧ c.val.toNat ≤ 57) := by
  rw [Char.isDigit, ← Bool.not_eq_true, Bool.and_eq_true, decide_eq_true_iff, decide_eq_true_iff,
    ge_iff_le, UInt32.le_iff_toNat_le, UInt32.le_iff_toNat_le]
  exact Iff.rfl

/-- The first byte of a character that is not a digit is not one either: it is the
character itself, or its highest bit is set. -/
theorem not_digit_of_utf8EncodeChar {c : Char} (hc : c.isDigit = false) {b : UInt8}
    {bs : List UInt8} (h : String.utf8EncodeChar c = b :: bs) :
    ¬ (48 ≤ b.toNat ∧ b.toNat ≤ 57) := by
  rw [isDigit_eq_false_iff] at hc
  rw [String.utf8EncodeChar] at h
  split at h
  · cases h
    rw [UInt8.toNat_ofNat']
    omega
  split at h
  · cases h
    rw [UInt8.toNat_ofNat']
    omega
  split at h
  · cases h
    rw [UInt8.toNat_ofNat']
    omega
  · cases h
    rw [UInt8.toNat_ofNat']
    omega

/-- After the length of a name, the name itself ends the number. -/
theorem stopsNumber_escape {name : String} (h : startsWithDigit name = false) :
    StopsNumber (escape name) := by
  rw [escape, bytesOf_eq]
  unfold startsWithDigit at h
  cases hname : name.toList with
  | nil => nofun
  | cons c cs =>
    rw [hname] at h
    obtain ⟨b, bs, hb⟩ := List.exists_cons_of_ne_nil (String.utf8EncodeChar_ne_nil (c := c))
    rw [List.flatMap_cons, hb, List.cons_append, List.flatMap_cons]
    have hstop := not_digit_of_escapeByte (not_digit_of_utf8EncodeChar h hb)
    obtain ⟨d, ds, hd⟩ := List.exists_cons_of_ne_nil (escapeByte_ne_nil b)
    rw [hd] at hstop ⊢
    exact hstop

/-- A name is as long as the number before it says. -/
theorem nominal_append_inj {letter : Char} {name name' : String} {r r' : List Char}
    (hname : startsWithDigit name = false) (hname' : startsWithDigit name' = false)
    (hr : StopsNumber r) (hr' : StopsNumber r')
    (h : nominal letter name ++ r = nominal letter name' ++ r') : name = name' ∧ r = r' := by
  simp only [nominal, List.cons_append, List.append_assoc, List.cons.injEq, true_and] at h
  obtain ⟨hlen, h⟩ := decimal_append_inj ((stopsNumber_escape hname).append hr)
    ((stopsNumber_escape hname').append hr') h
  obtain ⟨hescape, hrest⟩ := List.append_inj h hlen
  exact ⟨escape_injective hescape, hrest⟩

end Symbol

open Dispatch.Symbol

/-! ### Types -/

namespace Ty

mutual

/-- The names of classes and protocols in the type. -/
def names : Ty → List String
  | .unit => []
  | .scalar _ => []
  | .tuple elements => namesOf elements
  | .object className => [className]
  | .metatype className => [className]
  | .protocolSelf protocol => [protocol]
  | .generic _ => []

/-- The names of classes and protocols in the types. -/
def namesOf : List Ty → List String
  | [] => []
  | t :: rest => t.names ++ namesOf rest

end

/-- No class or protocol in the types has a name that begins with a digit. -/
def Readable (ts : List Ty) : Prop := ∀ name ∈ namesOf ts, startsWithDigit name = false

instance (ts : List Ty) : Decidable (Readable ts) :=
  inferInstanceAs (Decidable (∀ name ∈ namesOf ts, startsWithDigit name = false))

theorem readable_nil : Readable [] := fun _ h => absurd h List.not_mem_nil

theorem readable_cons {t : Ty} {ts : List Ty} :
    Readable (t :: ts) ↔ (∀ name ∈ t.names, startsWithDigit name = false) ∧ Readable ts := by
  simp only [Readable, namesOf, List.mem_append, or_imp, forall_and]

/-- The letter that the type begins with. -/
def lead : Ty → Char
  | .unit => 'v'
  | .scalar kind => scalarLetter kind
  | .tuple _ => 'T'
  | .object _ => 'C'
  | .metatype _ => 'M'
  | .protocolSelf _ => 'P'
  | .generic _ => 'G'

theorem head?_code (t : Ty) : t.code.head? = some t.lead := by
  cases t <;> rfl

/-- Two types that are built in the same way: scalars are the same, and of the others the
contents may differ. -/
inductive Alike : Ty → Ty → Prop
  | unit : Alike .unit .unit
  | scalar (kind : Scalar) : Alike (.scalar kind) (.scalar kind)
  | tuple (elements elements' : List Ty) : Alike (.tuple elements) (.tuple elements')
  | object (name name' : String) : Alike (.object name) (.object name')
  | metatype (name name' : String) : Alike (.metatype name) (.metatype name')
  | protocolSelf (name name' : String) : Alike (.protocolSelf name) (.protocolSelf name')
  | generic (index index' : Nat) : Alike (.generic index) (.generic index')

/-- The letters that mark the end of a list of types. -/
def closers : List Char := ['_', 'E', 't', 'g']

theorem scalarLetter_injective {kind kind' : Scalar} (h : scalarLetter kind = scalarLetter kind') :
    kind = kind' := by
  cases kind <;> cases kind' <;> first | rfl | exact absurd h (by decide)

theorem scalarLetter_notMem (kind : Scalar) :
    scalarLetter kind ∉ ['v', 'T', 'C', 'M', 'P', 'G'] := by
  cases kind <;> decide

/-- The first letter tells how a type is built. -/
theorem alike_of_lead {t t' : Ty} (h : t.lead = t'.lead) : Alike t t' := by
  cases t with
  | scalar kind =>
    cases t' with
    | scalar kind' =>
      cases scalarLetter_injective h
      exact .scalar kind
    | _ =>
      have hother := scalarLetter_notMem kind
      simp [show scalarLetter kind = _ from h, lead] at hother
  | _ =>
    cases t' with
    | scalar kind =>
      have hother := scalarLetter_notMem kind
      simp [show scalarLetter kind = _ from h.symm, lead] at hother
    | _ => first | constructor | simp [lead] at h

/-- No type begins with a letter that marks an end, or with a digit. -/
theorem lead_notMem_closers (t : Ty) : t.lead ∉ closers ∧ t.lead.isDigit = false := by
  cases t with
  | scalar kind => cases kind <;> decide
  | _ => exact ⟨by simp [lead, closers], by simp [lead, Char.isDigit]⟩

/-- The text ends a list of types: it is empty or goes on with a closing letter. -/
def Closes (r : List Char) : Prop := ∀ c ∈ r.head?, c ∈ closers

theorem closes_nil : Closes [] := nofun

theorem closes_cons {c : Char} {r : List Char} (h : c ∈ closers) : Closes (c :: r) := by
  intro d hd
  cases hd
  exact h

theorem head?_codes_append_cons {t : Ty} {ts : List Ty} {r : List Char} :
    (codes (t :: ts) ++ r).head? = some t.lead := by
  rw [codes, List.append_assoc, List.head?_append, head?_code]
  rfl

/-- A number inside a type ends before whatever comes after the type. -/
theorem stopsNumber_codes_append (ts : List Ty) {r : List Char} (hr : Closes r) :
    StopsNumber (codes ts ++ r) := by
  cases ts with
  | nil =>
    have hclosers : ∀ c ∈ closers, c.isDigit = false := by
      simp only [closers, List.forall_mem_cons]
      exact ⟨rfl, rfl, rfl, rfl, nofun⟩
    intro c hc
    exact hclosers c (hr c hc)
  | cons t ts =>
    intro c hc
    rw [head?_codes_append_cons] at hc
    cases hc
    exact (lead_notMem_closers t).2

/-- A list of types and a text that closes it never read alike unless the list is
empty. -/
theorem codes_cons_append_ne {t : Ty} {ts : List Ty} {r r' : List Char} (hr' : Closes r') :
    codes (t :: ts) ++ r ≠ r' := by
  intro h
  have hhead := congrArg List.head? h
  rw [head?_codes_append_cons] at hhead
  exact (lead_notMem_closers t).1 (hr' _ hhead.symm)

/-- Types can be read back from their letters, and it is clear where they end. -/
theorem codes_append_inj {ts ts' : List Ty} {r r' : List Char} (hts : Readable ts)
    (hts' : Readable ts') (hr : Closes r) (hr' : Closes r')
    (h : codes ts ++ r = codes ts' ++ r') : ts = ts' ∧ r = r' := by
  match ts, ts' with
  | [], [] => exact ⟨rfl, h⟩
  | [], t' :: ts' => exact absurd h.symm (codes_cons_append_ne hr)
  | t :: ts, [] => exact absurd h (codes_cons_append_ne hr')
  | t :: ts, t' :: ts' =>
    obtain ⟨hnames, hmore⟩ := readable_cons.mp hts
    obtain ⟨hnames', hmore'⟩ := readable_cons.mp hts'
    have hlead : t.lead = t'.lead := by
      have hhead := congrArg List.head? h
      rw [head?_codes_append_cons, head?_codes_append_cons] at hhead
      exact Option.some.inj hhead
    have hstop := stopsNumber_codes_append ts hr
    have hstop' := stopsNumber_codes_append ts' hr'
    rw [codes, codes, List.append_assoc, List.append_assoc] at h
    -- it is enough to read the first type
    suffices hfirst : t = t' ∧ codes ts ++ r = codes ts' ++ r' by
      obtain ⟨rfl, hrest⟩ := hfirst
      obtain ⟨rfl, rfl⟩ := codes_append_inj hmore hmore' hr hr' hrest
      exact ⟨rfl, rfl⟩
    cases alike_of_lead hlead with
    | unit => exact ⟨rfl, List.append_cancel_left h⟩
    | scalar kind => exact ⟨rfl, List.append_cancel_left h⟩
    | tuple elements elements' =>
      simp only [code, List.cons_append, List.append_assoc, List.nil_append, List.cons.injEq,
        true_and] at h
      obtain ⟨rfl, hrest⟩ := codes_append_inj hnames hnames' (closes_cons (by decide))
        (closes_cons (by decide)) h
      exact ⟨rfl, (List.cons.inj hrest).2⟩
    | object name name' | metatype name name' | protocolSelf name name' =>
      obtain ⟨rfl, hrest⟩ := nominal_append_inj (hnames name List.mem_cons_self)
        (hnames' name' List.mem_cons_self) hstop hstop' h
      exact ⟨rfl, hrest⟩
    | generic index index' =>
      simp only [code, List.cons_append, List.append_assoc, List.nil_append, List.cons.injEq,
        true_and] at h
      obtain ⟨rfl, hrest⟩ := decimal_append_inj (fun c hc => by cases hc; rfl)
        (fun c hc => by cases hc; rfl) h
      exact ⟨rfl, (List.cons.inj hrest).2⟩
termination_by sizeOf ts

theorem readable_iff {ts : List Ty} :
    Readable ts ↔ ∀ t ∈ ts, ∀ name ∈ t.names, startsWithDigit name = false := by
  induction ts with
  | nil => exact ⟨fun _ => nofun, fun _ => readable_nil⟩
  | cons t ts ih => rw [readable_cons, ih, List.forall_mem_cons]

theorem codes_singleton (t : Ty) : codes [t] = t.code := by
  rw [codes, codes, List.append_nil]

theorem code_append_inj {t t' : Ty} {r r' : List Char}
    (ht : ∀ name ∈ t.names, startsWithDigit name = false)
    (ht' : ∀ name ∈ t'.names, startsWithDigit name = false) (hr : Closes r) (hr' : Closes r')
    (h : t.code ++ r = t'.code ++ r') : t = t' ∧ r = r' := by
  rw [← codes_singleton, ← codes_singleton] at h
  obtain ⟨hts, hrest⟩ := codes_append_inj (readable_cons.mpr ⟨ht, readable_nil⟩)
    (readable_cons.mpr ⟨ht', readable_nil⟩) hr hr' h
  exact ⟨(List.cons.inj hts).1, hrest⟩

end Ty

/-! ### Types of a pool -/

/-- Two lists on which attempts give the same results, one by one. -/
theorem Attempt.mapM_inj {α β : Type} {f g : α → Attempt β} {l l' : List α} {ys : List β}
    (h : l.mapM f = .ok ys) (h' : l'.mapM g = .ok ys)
    (hfg : ∀ x x' y, f x = .ok y → g x' = .ok y → x = x') : l = l' := by
  induction l generalizing l' ys with
  | nil =>
    cases h
    cases l' with
    | nil => rfl
    | cons x' l' =>
      obtain ⟨_, _, _, _, h⟩ := mapM_cons_eq_ok.mp h'
      cases h
  | cons x l ih =>
    obtain ⟨y, rest, hy, hrest, rfl⟩ := mapM_cons_eq_ok.mp h
    cases l' with
    | nil => cases h'
    | cons x' l' =>
      obtain ⟨y', rest', hy', hrest', heq⟩ := mapM_cons_eq_ok.mp h'
      cases heq
      rw [hfg x x' y hy hy', ih hrest hrest']

namespace Pool

variable {p : Pool}

/-- The shape of a type, given the ids of the elements of a tuple. -/
def root (elements : List TypeId) : Ty → Shape
  | .unit => .unit
  | .scalar kind => .scalar kind
  | .tuple _ => .tuple elements
  | .object className => .object className
  | .metatype className => .metatype className
  | .protocolSelf protocol => .protocolSelf protocol
  | .generic index => .generic index

theorem shape_of_treeTo {depth : Nat} {id : TypeId} {t : Ty}
    (h : p.treeTo (depth + 1) id = .ok t) :
    ∃ elements, p.shape id = .ok (root elements t) ∧
      ∀ ts, t = .tuple ts → elements.mapM (p.treeTo depth) = .ok ts := by
  rw [treeTo, bind_eq_ok] at h
  obtain ⟨s, hs, h⟩ := h
  cases s with
  | tuple elements =>
    obtain ⟨ts, hts, rfl⟩ := map_eq_ok.mp h
    refine ⟨elements, hs, ?_⟩
    intro ts' heq
    cases heq
    exact hts
  | _ =>
    cases h
    refine ⟨[], hs, ?_⟩
    intro ts heq
    cases heq

theorem treeTo_inj (hp : p.Distinct) {depth depth' : Nat} {id id' : TypeId} {t : Ty}
    (h : p.treeTo depth id = .ok t) (h' : p.treeTo depth' id' = .ok t) : id = id' := by
  induction depth generalizing depth' id id' t with
  | zero => cases h
  | succ depth ih =>
    cases depth' with
    | zero => cases h'
    | succ depth' =>
      obtain ⟨elements, hs, helements⟩ := shape_of_treeTo h
      obtain ⟨elements', hs', helements'⟩ := shape_of_treeTo h'
      have hroot : root elements t = root elements' t := by
        cases t with
        | tuple ts =>
          have heq : elements = elements' :=
            mapM_inj (helements ts rfl) (helements' ts rfl) fun _ _ _ hx hx' => ih hx hx'
          rw [heq]
        | _ => rfl
      rw [shape_eq_ok] at hs hs'
      have hlt : id < p.shapes.length := (List.getElem?_eq_some_iff.mp hs).1
      exact (List.getElem?_inj hlt hp).mp (hs.trans (hroot ▸ hs'.symm))

/-- Different types of a pool are different when written out. -/
theorem tree_inj (hp : p.Distinct) {id id' : TypeId} {t : Ty} (h : p.tree id = .ok t)
    (h' : p.tree id' = .ok t) : id = id' := treeTo_inj hp h h'

theorem mapM_tree_inj (hp : p.Distinct) {ids ids' : List TypeId} {ts : List Ty}
    (h : ids.mapM p.tree = .ok ts) (h' : ids'.mapM p.tree = .ok ts) : ids = ids' :=
  mapM_inj h h' fun _ _ _ => tree_inj hp

end Pool

/-! ### Signatures -/

theorem Generics.eq_of_isEmpty {g : Generics} (h : g.isEmpty = true) : g = {} := by
  obtain ⟨params, requirements⟩ := g
  simp only [isEmpty, Bool.and_eq_true, beq_iff_eq] at h
  rw [h.1, h.2]

theorem Generics.code_inj {g g' : Generics} (h : g.code = g'.code) : g = g' := by
  unfold code at h
  by_cases hg : g.isEmpty = true
  · by_cases hg' : g'.isEmpty = true
    · rw [eq_of_isEmpty hg, eq_of_isEmpty hg']
    · rw [if_pos hg, if_neg hg'] at h
      cases h
  · by_cases hg' : g'.isEmpty = true
    · rw [if_neg hg, if_pos hg'] at h
      cases h
    · rw [if_neg hg, if_neg hg'] at h
      obtain ⟨hparams, hrest⟩ := decimal_append_inj (fun c hc => by cases hc; rfl)
        (fun c hc => by cases hc; rfl) (List.cons.inj h).2
      have hrequirements := decimal_injective (List.cons.inj hrest).2
      cases g
      cases g'
      cases hparams
      cases hrequirements
      rfl

theorem Generics.closes_code (g : Generics) : Ty.Closes g.code := by
  unfold code
  split
  · exact Ty.closes_nil
  · exact Ty.closes_cons (by decide)

theorem Generics.code_ne_error (g : Generics) (r : List Char) : g.code ≠ 't' :: r := by
  unfold code
  split
  · exact (List.cons_ne_nil _ _).symm
  · intro h
    exact absurd (List.cons.inj h).1 (by decide)

namespace Method

variable {p : Pool} {m m' : Method}

/-- The letters of the types of a method, after the three letters for what it is. -/
def typesCode (params : List Ty) (result : Ty) (error : Option Ty) (g : Generics) : List Char :=
  Ty.codes params ++ '_' :: (result.code ++ (errorCode error ++ g.code))

theorem signatureCode_eq_ok {code : List Char} :
    m.signatureCode p = .ok code ↔ ∃ params result error,
      m.signature.params.mapM p.tree = .ok params ∧ p.tree m.signature.result = .ok result ∧
      m.signature.error.mapM p.tree = .ok error ∧
      code = m.ownerLetter :: m.kindLetter :: m.conventionLetter ::
        typesCode params result error m.signature.generics := by
  simp only [signatureCode, bind_eq_ok, pure_eq, Except.ok.injEq, typesCode, List.cons_append,
    List.nil_append, List.append_assoc]
  constructor
  · rintro ⟨params, hparams, result, hresult, error, herror, rfl⟩
    exact ⟨params, result, error, hparams, hresult, herror, rfl⟩
  · rintro ⟨params, result, error, hparams, hresult, herror, rfl⟩
    exact ⟨params, hparams, result, hresult, error, herror, rfl⟩

theorem closes_errorCode (error : Option Ty) (g : Generics) :
    Ty.Closes (errorCode error ++ g.code) := by
  cases error with
  | none => exact g.closes_code
  | some t => exact Ty.closes_cons (by decide)

/-- An error type follows a letter of its own. -/
theorem errorCode_append_inj {error error' : Option Ty} {g g' : Generics}
    (h : ∀ t ∈ error.toList, ∀ name ∈ t.names, startsWithDigit name = false)
    (h' : ∀ t ∈ error'.toList, ∀ name ∈ t.names, startsWithDigit name = false)
    (heq : errorCode error ++ g.code = errorCode error' ++ g'.code) : error = error' ∧ g = g' := by
  cases error with
  | none =>
    cases error' with
    | none => exact ⟨rfl, Generics.code_inj heq⟩
    | some t' => exact absurd heq (g.code_ne_error _)
  | some t =>
    cases error' with
    | none => exact absurd heq.symm (g'.code_ne_error _)
    | some t' =>
      obtain ⟨rfl, hrest⟩ := Ty.code_append_inj (h t List.mem_cons_self) (h' t' List.mem_cons_self)
        g.closes_code g'.closes_code (List.cons.inj heq).2
      exact ⟨rfl, Generics.code_inj hrest⟩

/-- The types of a method can be read back. -/
theorem typesCode_inj {params params' : List Ty} {result result' : Ty} {error error' : Option Ty}
    {g g' : Generics} (h : Ty.Readable (params ++ result :: error.toList))
    (h' : Ty.Readable (params' ++ result' :: error'.toList))
    (heq : typesCode params result error g = typesCode params' result' error' g') :
    params = params' ∧ result = result' ∧ error = error' ∧ g = g' := by
  simp only [Ty.readable_iff, List.forall_mem_append, List.forall_mem_cons] at h h'
  obtain ⟨hparams, hresult, herror⟩ := h
  obtain ⟨hparams', hresult', herror'⟩ := h'
  obtain ⟨rfl, heq₁⟩ := Ty.codes_append_inj (Ty.readable_iff.mpr hparams)
    (Ty.readable_iff.mpr hparams') (Ty.closes_cons (by decide)) (Ty.closes_cons (by decide)) heq
  obtain ⟨rfl, heq₂⟩ := Ty.code_append_inj hresult hresult' (closes_errorCode error g)
    (closes_errorCode error' g') (List.cons.inj heq₁).2
  obtain ⟨rfl, rfl⟩ := errorCode_append_inj herror herror' heq₂
  exact ⟨rfl, rfl, rfl, rfl⟩

/-- No class or protocol in the types of the method, its receiver aside, has a name that
begins with a digit. -/
def Readable (p : Pool) (m : Method) : Prop :=
  ∀ type ∈ m.signature.params ++ m.signature.result :: m.signature.error.toList,
    ∀ t, p.tree type = .ok t → ∀ name ∈ t.names, startsWithDigit name = false

theorem Readable.types (h : m.Readable p) {params : List Ty} {result : Ty} {error : Option Ty}
    (hparams : m.signature.params.mapM p.tree = .ok params)
    (hresult : p.tree m.signature.result = .ok result)
    (herror : m.signature.error.mapM p.tree = .ok error) :
    Ty.Readable (params ++ result :: error.toList) := by
  simp only [Readable, List.forall_mem_append, List.forall_mem_cons] at h
  obtain ⟨h₁, h₂, h₃⟩ := h
  simp only [Ty.readable_iff, List.forall_mem_append, List.forall_mem_cons]
  refine ⟨?_, h₂ result hresult, ?_⟩
  · intro t ht
    obtain ⟨type, htype, htree⟩ := mem_of_mem_mapM hparams t ht
    exact h₁ type htype t htree
  · intro t ht
    obtain rfl := Option.mem_toList.mp ht
    cases he : m.signature.error with
    | none =>
      rw [he] at herror
      cases herror
    | some type =>
      rw [he] at herror h₃
      obtain ⟨t', htree, heq⟩ := map_eq_ok.mp herror
      cases heq
      exact h₃ type (by simp) t htree

end Method

/-! ### Parts -/

namespace Symbol

theorem separator_notMem_escape (name : String) : separator ∉ escape name := by
  have hall : ∀ n < 256, separator ∉ escapeByte (UInt8.ofNat n) := by decide +kernel
  intro h
  obtain ⟨b, -, hb⟩ := List.mem_flatMap.mp h
  have hbyte := hall b.toNat b.toNat_lt
  rw [UInt8.ofNat_toNat] at hbyte
  exact hbyte hb

theorem separator_notMem_decimal (n : Nat) : separator ∉ decimal n := by
  intro h
  exact absurd (isDigit_of_mem_decimal h) (by decide)

theorem separator_notMem_nominal {letter : Char} (hletter : letter ≠ separator) (name : String) :
    separator ∉ nominal letter name := by
  simp only [nominal, List.mem_cons, List.mem_append, not_or]
  exact ⟨hletter.symm, separator_notMem_decimal _, separator_notMem_escape name⟩

theorem separator_notMem_codes (ts : List Ty) : separator ∉ Ty.codes ts := by
  match ts with
  | [] => exact List.not_mem_nil
  | t :: ts =>
    rw [Ty.codes, List.mem_append, not_or]
    refine ⟨?_, separator_notMem_codes ts⟩
    cases t with
    | unit => decide
    | scalar kind => cases kind <;> decide
    | tuple elements =>
      have hinner := separator_notMem_codes elements
      simpa [Ty.code, separator] using hinner
    | object name | metatype name | protocolSelf name =>
      exact separator_notMem_nominal (by decide) name
    | generic index =>
      have hinner := separator_notMem_decimal index
      simpa [Ty.code, separator] using hinner
termination_by sizeOf ts

/-- The parts of a symbol, each free of the separator. -/
structure IsParts (parts : List (List Char)) : Prop where
  ne_nil : parts ≠ []
  free : ∀ part ∈ parts, separator ∉ part

theorem intercalate_inj {parts parts' : List (List Char)} (h : IsParts parts)
    (h' : IsParts parts')
    (heq : List.intercalate [separator] parts = List.intercalate [separator] parts') :
    parts = parts' := by
  have hrun : ∀ {part : List Char}, separator ∉ part → ∀ c ∈ part, (c != separator) = true := by
    intro part hpart c hc
    rw [bne_iff_ne]
    rintro rfl
    exact hpart hc
  match parts, parts' with
  | [], _ => exact absurd rfl h.ne_nil
  | _ :: _, [] => exact absurd rfl h'.ne_nil
  | [part], [part'] => simpa using heq
  | [part], part' :: next :: rest =>
    rw [List.intercalate_cons_cons, List.intercalate_singleton] at heq
    refine absurd ?_ (h.free part List.mem_cons_self)
    simp [heq]
  | part :: next :: rest, [part'] =>
    rw [List.intercalate_cons_cons, List.intercalate_singleton] at heq
    refine absurd ?_ (h'.free part' List.mem_cons_self)
    simp [← heq]
  | part :: next :: rest, part' :: next' :: rest' =>
    rw [List.intercalate_cons_cons, List.intercalate_cons_cons, List.append_assoc,
      List.append_assoc] at heq
    obtain ⟨rfl, hrest⟩ := append_inj_of_stop (hrun (h.free part List.mem_cons_self))
      (hrun (h'.free part' List.mem_cons_self)) (by rintro c ⟨⟩; rfl) (by rintro c ⟨⟩; rfl) heq
    have hmore : IsParts (next :: rest) :=
      ⟨List.cons_ne_nil _ _, fun q hq => h.free q (List.mem_cons_of_mem _ hq)⟩
    have hmore' : IsParts (next' :: rest') :=
      ⟨List.cons_ne_nil _ _, fun q hq => h'.free q (List.mem_cons_of_mem _ hq)⟩
    rw [intercalate_inj hmore hmore' (List.append_cancel_left hrest)]

/-- A symbol has its parts only. -/
theorem ofParts_inj {parts parts' : List (List Char)} (h : IsParts parts) (h' : IsParts parts')
    (heq : ofParts parts = ofParts parts') : parts = parts' :=
  intercalate_inj h h' (List.append_cancel_left (String.ofList_injective heq))

theorem intercalate_concat (sep last : List Char) {parts : List (List Char)} (h : parts ≠ []) :
    List.intercalate sep (parts ++ [last]) = List.intercalate sep parts ++ (sep ++ last) := by
  match parts with
  | [part] => simp [List.intercalate_cons_cons, List.intercalate_singleton]
  | part :: next :: rest =>
    have ih := intercalate_concat sep last (List.cons_ne_nil next rest)
    rw [List.cons_append] at ih
    rw [List.cons_append, List.cons_append, List.intercalate_cons_cons, ih,
      List.intercalate_cons_cons, List.append_assoc, List.append_assoc, List.append_assoc]

/-- The pointer's symbol has one part more than that of the function. -/
theorem asyncPointerSymbol_ofParts {parts : List (List Char)} (h : parts ≠ []) :
    asyncPointerSymbol (ofParts parts) = ofParts (parts ++ [asyncPointerCode]) := by
  rw [asyncPointerSymbol, ofParts, ofParts, intercalate_concat _ _ h, ← String.ofList_append,
    List.append_assoc]
  rfl

theorem IsParts.asyncPointer {parts : List (List Char)} (h : IsParts parts) :
    IsParts (parts ++ [asyncPointerCode]) := by
  refine ⟨List.append_ne_nil_of_left_ne_nil h.ne_nil _, ?_⟩
  rw [List.forall_mem_append]
  exact ⟨h.free, by decide⟩

theorem separator_notMem_code (entity : Entity) : separator ∉ entity.code := by
  cases entity <;> decide

end Symbol

namespace Method

variable {p : Pool} {m m' : Method}

theorem separator_notMem_typesCode (params : List Ty) (result : Ty) (error : Option Ty)
    (g : Generics) : separator ∉ typesCode params result error g := by
  have hcode : ∀ t : Ty, separator ∉ t.code := by
    intro t
    rw [← Ty.codes_singleton]
    exact separator_notMem_codes [t]
  have herror : separator ∉ errorCode error := by
    cases error with
    | none => exact List.not_mem_nil
    | some t =>
      rw [errorCode, List.mem_cons, not_or]
      exact ⟨by decide, hcode t⟩
  have hgenerics : separator ∉ g.code := by
    unfold Generics.code
    split
    · exact List.not_mem_nil
    · simp only [List.mem_cons, List.mem_append, not_or]
      exact ⟨by decide, separator_notMem_decimal _, by decide, separator_notMem_decimal _⟩
  simp only [typesCode, List.mem_cons, List.mem_append, not_or]
  exact ⟨separator_notMem_codes params, by decide, hcode result, herror, hgenerics⟩

theorem separator_notMem_signatureCode {code : List Char} (h : m.signatureCode p = .ok code) :
    separator ∉ code := by
  obtain ⟨params, result, error, -, -, -, rfl⟩ := signatureCode_eq_ok.mp h
  have howner : separator ≠ m.ownerLetter := by
    unfold ownerLetter
    split <;> decide
  have hkind : separator ≠ m.kindLetter := by
    unfold kindLetter
    split <;> decide
  have hconvention : separator ≠ m.conventionLetter := by
    unfold conventionLetter
    split <;> decide
  simp only [List.mem_cons, not_or]
  exact ⟨howner, hkind, hconvention, separator_notMem_typesCode _ _ _ _⟩

/-- The parts of a symbol that belongs to a method. -/
theorem parts_of_entitySymbol {entity : Entity} {symbol : String}
    (h : m.entitySymbol p entity = .ok symbol) : ∃ code, m.signatureCode p = .ok code ∧
      IsParts [escape m.module, escape m.owner.name, escape m.selector, code, entity.code] ∧
      symbol = ofParts
        [escape m.module, escape m.owner.name, escape m.selector, code, entity.code] := by
  obtain ⟨code, hcode, h⟩ := bind_eq_ok.mp h
  cases h
  refine ⟨code, hcode, ⟨List.cons_ne_nil _ _, ?_⟩, rfl⟩
  simp only [List.forall_mem_cons]
  exact ⟨separator_notMem_escape _, separator_notMem_escape _, separator_notMem_escape _,
    separator_notMem_signatureCode hcode, separator_notMem_code entity, nofun⟩

/-- The parts of the symbol of an implementation. -/
theorem parts_of_implementationSymbol {implementor symbol : String}
    (h : m.implementationSymbol p implementor = .ok symbol) : ∃ code,
      m.signatureCode p = .ok code ∧
      IsParts [escape m.module, escape implementor, escape m.selector, code] ∧
      symbol = ofParts [escape m.module, escape implementor, escape m.selector, code] := by
  obtain ⟨code, hcode, h⟩ := bind_eq_ok.mp h
  cases h
  refine ⟨code, hcode, ⟨List.cons_ne_nil _ _, ?_⟩, rfl⟩
  simp only [List.forall_mem_cons]
  exact ⟨separator_notMem_escape _, separator_notMem_escape _, separator_notMem_escape _,
    separator_notMem_signatureCode hcode, nofun⟩

end Method

end Dispatch
