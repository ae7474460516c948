import Dispatch.Code.Text
import Dispatch.Proofs.Mangling

/-!
# What a listing shows

There is no reader for the text form of code, and none is needed: every line begins with what
it defines, then says in one word what it does, and from there on numbers, names and lists end
where something else follows.  So as long as names have no blanks in them, a listing shows
everything that is in a function, apart from the kinds of its inner variables.

## Main definitions

* `Unbroken` — a name without blanks, `Function.symbols` — the names in a function.
* `startsWith`, `GoesOn` — what follows a piece of text.
* `Listed` — elements of lists of which it is known where they end.
* `Line` — a line in three parts: a `Lead`, a `Keyword` and operands.

## Main results

* `number_append_inj`, `name_append_inj`, `Listed.append_inj` — where pieces end.
* `Line.append_inj` — the parts of a line are told one after the other.
* `Instr.text_append_inj`, `Terminator.text_append_inj`, `Block.text_append_inj` — what stands
  on lines.
* `Function.text_eq_iff` — functions with one text.
-/

namespace Dispatch

open Dispatch.Symbol

/-! ### Names -/

/-- A name that ends where a blank or a line break follows. -/
def Unbroken (name : String) : Prop := ' ' ∉ name.toList ∧ '\n' ∉ name.toList

instance (name : String) : Decidable (Unbroken name) := inferInstanceAs (Decidable (_ ∧ _))

/-- The name in a slot. -/
def Slot.symbols : Slot → List String
  | fixed _ => []
  | resilient bounds _ => [bounds]

/-- The names in an instruction. -/
def Instr.symbols : Instr → List String
  | globalAddr _ symbol => [symbol]
  | tableMethod _ _ slot => slot.symbols
  | _ => []

/-- The function's own name, and those in its instructions. -/
def Function.symbols (f : Function) : List String :=
  f.name :: f.instructions.flatMap Instr.symbols

section Pieces

variable {r r' : List Char}

/-! ### Where a piece of text ends -/

/-- The first character of a piece of text has a property. -/
def startsWith (p : Char → Bool) (s : String) : Bool := s.toList.head?.any p

theorem exists_cons_of_startsWith {p : Char → Bool} {s : String} (hs : startsWith p s = true) :
    ∃ c rest, s.toList = c :: rest ∧ p c = true := by
  rw [startsWith] at hs
  cases hlist : s.toList with
  | nil =>
    rw [hlist] at hs
    cases hs
  | cons c rest =>
    rw [hlist] at hs
    exact ⟨c, rest, rfl, hs⟩

/-- The text goes on with such a character. -/
def GoesOn (p : Char → Bool) (r : List Char) : Prop := ∃ c rest, r = c :: rest ∧ p c = true

theorem goesOn_append {p : Char → Bool} {s : String} (hs : startsWith p s = true) :
    GoesOn p (s.toList ++ r) := by
  obtain ⟨c, rest, hlist, hc⟩ := exists_cons_of_startsWith hs
  exact ⟨c, rest ++ r, by rw [hlist, List.cons_append], hc⟩

/-- No number goes on with this character. -/
def endsNumber (c : Char) : Bool := !c.isDigit

/-- No name without blanks goes on with this character. -/
def endsName (c : Char) : Bool := c == ' ' || c == '\n'

/-- A list ends before this character. -/
def endsList (c : Char) : Bool := c == ')' || c == '\n'

theorem stopsNumber_append {s : String} (hs : startsWith endsNumber s = true) :
    StopsNumber (s.toList ++ r) := by
  obtain ⟨c, rest, hlist, hc⟩ := exists_cons_of_startsWith hs
  rw [hlist]
  rintro _ ⟨⟩
  rwa [endsNumber, Bool.not_eq_true'] at hc

theorem toList_toString (n : Nat) : (toString n).toList = decimal n := by
  rw [Nat.toString_eq_ofList_toDigits, String.toList_ofList, decimal]

theorem number_append_inj {n n' : Nat} {s : String}
    (h : (toString n).toList ++ (s.toList ++ r) = (toString n').toList ++ (s.toList ++ r'))
    (hs : startsWith endsNumber s = true := by decide) : n = n' ∧ r = r' := by
  rw [toList_toString, toList_toString] at h
  obtain ⟨hn, hrest⟩ := decimal_append_inj (stopsNumber_append hs) (stopsNumber_append hs) h
  exact ⟨hn, List.append_cancel_left hrest⟩

theorem Var.toList_text (v : Var) : v.text.toList = '%' :: decimal v := by
  rw [text, String.toList_append, toList_toString]
  rfl

theorem var_append_inj {v v' : Var} {s : String}
    (h : v.text.toList ++ (s.toList ++ r) = v'.text.toList ++ (s.toList ++ r'))
    (hs : startsWith endsNumber s = true := by decide) : v = v' ∧ r = r' := by
  rw [Var.text, Var.text, String.toList_append, String.toList_append, List.append_assoc,
    List.append_assoc] at h
  exact number_append_inj (List.append_cancel_left h) hs

theorem block_append_inj {k k' : BlockId} {s : String}
    (h : k.text.toList ++ (s.toList ++ r) = k'.text.toList ++ (s.toList ++ r'))
    (hs : startsWith endsNumber s = true := by decide) : k = k' ∧ r = r' := by
  rw [BlockId.text, BlockId.text, String.toList_append, String.toList_append, List.append_assoc,
    List.append_assoc] at h
  exact number_append_inj (List.append_cancel_left h) hs

/-- A word without such characters ends where one of them follows. -/
theorem word_append_inj {p : Char → Bool} {a a' : List Char} (ha : ∀ c ∈ a, p c = false)
    (ha' : ∀ c ∈ a', p c = false) (hr : GoesOn p r) (hr' : GoesOn p r') (h : a ++ r = a' ++ r') :
    a = a' ∧ r = r' := by
  have hrun : ∀ {a : List Char}, (∀ c ∈ a, p c = false) → ∀ c ∈ a, (!p c) = true :=
    fun ha c hc => by rw [ha c hc, Bool.not_false]
  have hstop : ∀ {r : List Char}, GoesOn p r → ∀ c ∈ r.head?, (!p c) = false := by
    rintro _ ⟨c, rest, rfl, hc⟩ _ ⟨⟩
    rw [hc, Bool.not_true]
  exact append_inj_of_stop (hrun ha) (hrun ha') (hstop hr) (hstop hr') h

theorem Unbroken.not_endsName {name : String} (h : Unbroken name) :
    ∀ c ∈ name.toList, endsName c = false := by
  intro c hc
  rw [endsName, Bool.or_eq_false_iff, beq_eq_false_iff_ne, beq_eq_false_iff_ne]
  exact ⟨fun heq => h.1 (heq ▸ hc), fun heq => h.2 (heq ▸ hc)⟩

theorem unbroken_append_inj {name name' : String} (hname : Unbroken name) (hname' : Unbroken name')
    (hr : GoesOn endsName r) (hr' : GoesOn endsName r')
    (h : name.toList ++ r = name'.toList ++ r') : name = name' ∧ r = r' := by
  obtain ⟨heq, hrest⟩ := word_append_inj hname.not_endsName hname'.not_endsName hr hr' h
  exact ⟨String.toList_inj.mp heq, hrest⟩

theorem name_append_inj {name name' s : String} (hname : Unbroken name) (hname' : Unbroken name')
    (h : name.toList ++ (s.toList ++ r) = name'.toList ++ (s.toList ++ r'))
    (hs : startsWith endsName s = true := by decide) : name = name' ∧ r = r' := by
  obtain ⟨heq, hrest⟩ := unbroken_append_inj hname hname' (goesOn_append hs) (goesOn_append hs) h
  exact ⟨heq, List.append_cancel_left hrest⟩

/-! ### Lists -/

/-- An element of a list ends before this character. -/
def endsElement (c : Char) : Bool := c == ',' || endsList c

theorem GoesOn.element (h : GoesOn endsList r) : GoesOn endsElement r := by
  obtain ⟨c, rest, rfl, hc⟩ := h
  exact ⟨c, rest, rfl, by rw [endsElement, hc, Bool.or_true]⟩

/-- Text of elements that begin with a percent sign, and of which it is known where they
end. -/
structure Listed {α : Type} (text : α → String) : Prop where
  percent : ∀ a, ∃ rest, (text a).toList = '%' :: rest
  ends : ∀ {a a' : α} {r r' : List Char}, GoesOn endsElement r → GoesOn endsElement r' →
    (text a).toList ++ r = (text a').toList ++ r' → a = a' ∧ r = r'

/-- The elements of a list after the first one. -/
def others {α : Type} (text : α → String) : List α → List Char
  | [] => []
  | a :: rest => ", ".toList ++ ((text a).toList ++ others text rest)

theorem toList_intercalate_cons {α : Type} (text : α → String) (a : α) (rest : List α) :
    (", ".intercalate ((a :: rest).map text)).toList = (text a).toList ++ others text rest := by
  rw [String.toList_intercalate]
  induction rest generalizing a with
  | nil => rw [others, List.append_nil, List.map_singleton, List.map_singleton,
      List.intercalate_singleton]
  | cons b rest ih =>
    have hrest := ih b
    simp only [List.map_cons] at hrest ⊢
    rw [List.intercalate_cons_cons, hrest, others, List.append_assoc]

theorem goesOn_others {α : Type} {text : α → String} (hr : GoesOn endsElement r) (as : List α) :
    GoesOn endsElement (others text as ++ r) := by
  cases as with
  | nil => exact hr
  | cons a rest => exact ⟨',', _, rfl, rfl⟩

/-- A list goes on if a comma follows. -/
theorem Listed.others_append_inj {α : Type} {text : α → String} (ht : Listed text)
    (hr : GoesOn endsList r) (hr' : GoesOn endsList r') {as as' : List α}
    (h : others text as ++ r = others text as' ++ r') : as = as' ∧ r = r' := by
  have hcomma : ∀ {r more : List Char}, GoesOn endsList r → r ≠ ',' :: more := by
    rintro _ more ⟨c, rest, rfl, hc⟩ heq
    obtain ⟨rfl, -⟩ := List.cons.inj heq
    cases hc
  induction as generalizing as' with
  | nil =>
    cases as' with
    | nil => exact ⟨rfl, h⟩
    | cons => exact absurd h (hcomma hr)
  | cons a rest ih =>
    cases as' with
    | nil => exact absurd h.symm (hcomma hr')
    | cons a' rest' =>
      rw [others, others, List.append_assoc, List.append_assoc, List.append_assoc,
        List.append_assoc] at h
      obtain ⟨rfl, hothers⟩ := ht.ends (goesOn_others hr.element rest)
        (goesOn_others hr'.element rest') (List.append_cancel_left h)
      obtain ⟨rfl, hrest⟩ := ih hothers
      exact ⟨rfl, hrest⟩

theorem Listed.append_inj {α : Type} {text : α → String} (ht : Listed text)
    (hr : GoesOn endsList r) (hr' : GoesOn endsList r') {as as' : List α}
    (h : (", ".intercalate (as.map text)).toList ++ r =
      (", ".intercalate (as'.map text)).toList ++ r') : as = as' ∧ r = r' := by
  have hpercent : ∀ {a : α} {r more : List Char}, GoesOn endsList r →
      r ≠ (text a).toList ++ more := by
    rintro a _ more ⟨c, rest, rfl, hc⟩ heq
    obtain ⟨rest', hrest'⟩ := ht.percent a
    rw [hrest'] at heq
    obtain ⟨rfl, -⟩ := List.cons.inj heq
    cases hc
  cases as with
  | nil =>
    cases as' with
    | nil => exact ⟨rfl, List.append_cancel_left h⟩
    | cons a' rest' =>
      rw [toList_intercalate_cons, List.append_assoc] at h
      exact absurd h (hpercent hr)
  | cons a rest =>
    rw [toList_intercalate_cons, List.append_assoc] at h
    cases as' with
    | nil => exact absurd h.symm (hpercent hr')
    | cons a' rest' =>
      rw [toList_intercalate_cons, List.append_assoc] at h
      obtain ⟨rfl, hothers⟩ := ht.ends (goesOn_others hr.element rest)
        (goesOn_others hr'.element rest') h
      obtain ⟨rfl, hrest⟩ := ht.others_append_inj hr hr' hothers
      exact ⟨rfl, hrest⟩

theorem stopsNumber_of_goesOn (hr : GoesOn endsElement r) : StopsNumber r := by
  obtain ⟨c, rest, rfl, hc⟩ := hr
  rintro _ ⟨⟩
  simp only [endsElement, endsList, Bool.or_eq_true, beq_iff_eq] at hc
  rcases hc with rfl | rfl | rfl <;> rfl

theorem Listed.append_text_inj {α : Type} {text : α → String} {s : String} (ht : Listed text)
    {as as' : List α}
    (h : (", ".intercalate (as.map text)).toList ++ (s.toList ++ r) =
      (", ".intercalate (as'.map text)).toList ++ (s.toList ++ r'))
    (hs : startsWith endsList s = true := by decide) : as = as' ∧ r = r' := by
  obtain ⟨has, hrest⟩ := ht.append_inj (goesOn_append hs) (goesOn_append hs) h
  exact ⟨has, List.append_cancel_left hrest⟩

theorem listed_var : Listed Var.text where
  percent v := ⟨_, v.toList_text⟩
  ends hr hr' h := by
    rw [Var.toList_text, Var.toList_text] at h
    exact decimal_append_inj (stopsNumber_of_goesOn hr) (stopsNumber_of_goesOn hr')
      (List.cons.inj h).2

theorem endsElement_scalar (kind : Scalar) : ∀ c ∈ kind.text.toList, endsElement c = false := by
  have hall : kind.text.toList.all (!endsElement ·) = true := by cases kind <;> decide
  simpa only [List.all_eq_true, Bool.not_eq_true'] using hall

theorem listed_param : Listed Param.text where
  percent p := by
    rw [Param.text, String.toList_append, String.toList_append, Var.toList_text]
    exact ⟨_, rfl⟩
  ends {p p' r r'} hr hr' h := by
    obtain ⟨v, kind⟩ := p
    obtain ⟨v', kind'⟩ := p'
    rw [Param.text, Param.text] at h
    simp only [String.toList_append, List.append_assoc] at h
    obtain ⟨rfl, hkinds⟩ := var_append_inj h
    obtain ⟨hkind, hrest⟩ :=
      word_append_inj (endsElement_scalar kind) (endsElement_scalar kind') hr hr' hkinds
    have hsame := congrArg Scalar.ofText? (String.toList_inj.mp hkind)
    rw [Scalar.ofText?_text, Scalar.ofText?_text] at hsame
    cases hsame
    exact ⟨rfl, hrest⟩

/-! ### Hexadecimal numbers -/

/-- The value of a hexadecimal digit. -/
def hexValue (c : Char) : Nat := ((List.range 16).map Nat.digitChar).idxOf c

/-- The value of hexadecimal digits that follow a number. -/
def ofHex (n : Nat) (digits : List Char) : Nat := digits.foldl (fun n c => 16 * n + hexValue c) n

theorem hexValue_digitChar : ∀ d < 16, hexValue (Nat.digitChar d) = d := by decide

theorem ofHex_toDigits (n : Nat) : ofHex 0 (Nat.toDigits 16 n) = n := by
  induction n using Nat.strongRecOn with
  | ind n ih =>
    rw [Nat.toDigits_eq_if (by decide)]
    split
    · next hn =>
      rw [ofHex, List.foldl_cons, List.foldl_nil, hexValue_digitChar n hn]
      omega
    · next hn =>
      have hquotient := ih (n / 16) (Nat.div_lt_self (by omega) (by decide))
      rw [ofHex] at hquotient ⊢
      rw [List.foldl_append, hquotient, List.foldl_cons, List.foldl_nil,
        hexValue_digitChar _ (Nat.mod_lt n (by decide)), Nat.div_add_mod]

/-- Leading zeros do not count. -/
theorem ofHex_zeros (k : Nat) (digits : List Char) :
    ofHex 0 (List.replicate k '0' ++ digits) = ofHex 0 digits := by
  induction k with
  | zero => rfl
  | succ k ih =>
    rw [List.replicate_succ, List.cons_append, ofHex, List.foldl_cons]
    exact ih

theorem not_endsName_digits (n : Nat) : ∀ c ∈ Nat.toDigits 16 n, endsName c = false := by
  have hdigit : ∀ d < 16, endsName (Nat.digitChar d) = false := by decide
  induction n using Nat.strongRecOn with
  | ind n ih =>
    rw [Nat.toDigits_eq_if (by decide)]
    split
    · next hn => exact List.forall_mem_singleton.mpr (hdigit n hn)
    · next hn =>
      rw [List.forall_mem_append, List.forall_mem_singleton]
      exact ⟨ih (n / 16) (Nat.div_lt_self (by omega) (by decide)),
        hdigit _ (Nat.mod_lt n (by decide))⟩

/-- Any number of zeros may stand before the digits. -/
theorem digits_append_inj {k k' n n' : Nat} {s : String}
    (h : List.replicate k '0' ++ Nat.toDigits 16 n ++ (s.toList ++ r) =
      List.replicate k' '0' ++ Nat.toDigits 16 n' ++ (s.toList ++ r'))
    (hs : startsWith endsName s = true) : n = n' ∧ r = r' := by
  have hdigits : ∀ k n : Nat,
      ∀ c ∈ List.replicate k '0' ++ Nat.toDigits 16 n, endsName c = false := by
    intro k n
    rw [List.forall_mem_append]
    refine ⟨fun c hc => ?_, not_endsName_digits n⟩
    rw [List.eq_of_mem_replicate hc]
    rfl
  obtain ⟨heq, hrest⟩ :=
    word_append_inj (hdigits k n) (hdigits k' n') (goesOn_append hs) (goesOn_append hs) h
  have hvalue := congrArg (ofHex 0) heq
  rw [ofHex_zeros, ofHex_zeros, ofHex_toDigits, ofHex_toDigits] at hvalue
  exact ⟨hvalue, List.append_cancel_left hrest⟩

theorem hex_append_inj {n n' : Nat} {s : String}
    (h : (hex n).toList ++ (s.toList ++ r) = (hex n').toList ++ (s.toList ++ r'))
    (hs : startsWith endsName s = true := by decide) : n = n' ∧ r = r' := by
  rw [hex, hex, String.toList_append, String.toList_append, List.append_assoc,
    List.append_assoc] at h
  have hdigits := List.append_cancel_left h
  simp only [String.toList_ofList] at hdigits
  have hzeros : List.replicate 0 '0' ++ Nat.toDigits 16 n ++ (s.toList ++ r) =
      List.replicate 0 '0' ++ Nat.toDigits 16 n' ++ (s.toList ++ r') := hdigits
  exact digits_append_inj hzeros hs

theorem hex4_append_inj {n n' : Nat} {s : String}
    (h : (hex4 n).toList ++ (s.toList ++ r) = (hex4 n').toList ++ (s.toList ++ r'))
    (hs : startsWith endsName s = true := by decide) : n = n' ∧ r = r' := by
  rw [hex4, hex4, String.toList_append, String.toList_append, List.append_assoc,
    List.append_assoc] at h
  have hdigits := List.append_cancel_left h
  simp only [String.toList_ofList] at hdigits
  exact digits_append_inj hdigits hs

/-! ### Slots and keys -/

theorem number_append_ne {n : Nat} {c : Char} (hc : c.isDigit = false) :
    (toString n).toList ++ r ≠ c :: r' := by
  intro h
  rw [toList_toString] at h
  cases hdigits : decimal n with
  | nil => exact Nat.toDigits_ne_nil hdigits
  | cons d rest =>
    rw [hdigits] at h
    obtain ⟨rfl, -⟩ := List.cons.inj h
    have hdigit := isDigit_of_mem_decimal (n := n) (hdigits ▸ List.mem_cons_self)
    rw [hc] at hdigit
    cases hdigit

theorem slot_append_inj {slot slot' : Slot} {s : String}
    (hnames : ∀ name ∈ slot.symbols, Unbroken name)
    (hnames' : ∀ name ∈ slot'.symbols, Unbroken name)
    (h : slot.text.toList ++ (s.toList ++ r) = slot'.text.toList ++ (s.toList ++ r'))
    (hs : startsWith endsNumber s = true := by decide) : slot = slot' ∧ r = r' := by
  cases slot with
  | fixed word =>
    cases slot' with
    | fixed word' =>
      obtain ⟨rfl, hrest⟩ := number_append_inj h hs
      exact ⟨rfl, hrest⟩
    | resilient =>
      simp only [Slot.text, String.toList_append, List.append_assoc] at h
      exact absurd h (number_append_ne rfl)
  | resilient bounds index =>
    cases slot' with
    | fixed =>
      simp only [Slot.text, String.toList_append, List.append_assoc] at h
      exact absurd h.symm (number_append_ne rfl)
    | resilient bounds' index' =>
      simp only [Slot.text, String.toList_append, List.append_assoc] at h
      obtain ⟨rfl, hindex⟩ := name_append_inj (hnames bounds List.mem_cons_self)
        (hnames' bounds' List.mem_cons_self) (List.append_cancel_left h)
      obtain ⟨rfl, hrest⟩ := number_append_inj hindex hs
      exact ⟨rfl, hrest⟩

theorem signing_append_inj {signing signing' : Signing} {s : String}
    (h : signing.text.toList ++ (s.toList ++ r) = signing'.text.toList ++ (s.toList ++ r'))
    (hs : startsWith endsName s = true := by decide) : signing = signing' ∧ r = r' := by
  obtain ⟨key, discriminator⟩ := signing
  obtain ⟨key', discriminator'⟩ := signing'
  have hkey : ∀ key : Key, Unbroken key.text := by
    intro key
    cases key <;> decide
  simp only [Signing.text, String.toList_append, List.append_assoc] at h
  obtain ⟨hsame, hdigits⟩ := name_append_inj (hkey key) (hkey key') h
  obtain ⟨hvalue, hrest⟩ := hex4_append_inj hdigits hs
  replace hsame := congrArg Key.ofText? hsame
  rw [Key.ofText?_text, Key.ofText?_text] at hsame
  cases hsame
  obtain rfl := UInt16.toNat_inj.mp hvalue
  exact ⟨rfl, hrest⟩

end Pieces

/-! ### Lines -/

/-- What is defined on a line. -/
inductive Lead where
  | nothing
  | one (dst : Var)
  | several (dsts : List Var)
  deriving DecidableEq, Repr

/-- The beginning of a line. -/
def Lead.text : Lead → String
  | nothing => ""
  | one dst => dst.text ++ " = "
  | several dsts => "(" ++ Var.listText dsts ++ ") = "

/-- What is done on a line. -/
inductive Keyword where
  | const | global | load | store | loadTake | alloca | fromNative | toNative | heapMetadata
  | witnessMethod | vtableMethod | auth | sign | eq | asyncEntry | call | callRuntime
  | ret | asyncExit | br | jump | unreachable
  deriving DecidableEq, Repr

namespace Keyword

/-- The word for it. -/
def text : Keyword → String
  | const => "const"
  | global => "global"
  | load => "load"
  | store => "store"
  | loadTake => "load_take"
  | alloca => "alloca"
  | fromNative => "from_native"
  | toNative => "to_native"
  | heapMetadata => "heap_metadata"
  | witnessMethod => "witness_method"
  | vtableMethod => "vtable_method"
  | auth => "auth"
  | sign => "sign"
  | eq => "eq"
  | asyncEntry => "async_entry"
  | call => "call"
  | callRuntime => "call_runtime"
  | ret => "return"
  | asyncExit => "async_exit"
  | br => "br"
  | jump => "jump"
  | unreachable => "unreachable"

/-- Every keyword. -/
def all : List Keyword :=
  [const, global, load, store, loadTake, alloca, fromNative, toNative, heapMetadata,
    witnessMethod, vtableMethod, auth, sign, eq, asyncEntry, call, callRuntime, ret, asyncExit,
    br, jump, unreachable]

/-- The keyword that a word stands for. -/
def ofText? (s : String) : Option Keyword := all.find? fun k => k.text == s

theorem ofText?_text (k : Keyword) : ofText? k.text = some k := by cases k <;> rfl

theorem unbroken (k : Keyword) : Unbroken k.text := by cases k <;> decide

/-- A keyword is neither a variable nor a list of variables. -/
theorem exists_toList (k : Keyword) :
    ∃ c rest, k.text.toList = c :: rest ∧ c ≠ '%' ∧ c ≠ '(' := by
  cases k <;> exact ⟨_, _, rfl, by decide, by decide⟩

end Keyword

/-- A line of a block, in three parts, of which the last one may be missing. -/
structure Line where
  lead : Lead
  keyword : Keyword
  operands : Option String
  deriving DecidableEq, Repr

/-- The end of a line. -/
def Line.ending (l : Line) : String := l.operands.elim "" (" " ++ ·)

/-- The text of a line. -/
def Line.text (l : Line) : String := l.lead.text ++ l.keyword.text ++ l.ending

/-- The line of an instruction. -/
def Instr.line : Instr → Line
  | const dst value => ⟨.one dst, .const, hex value.toNat⟩
  | globalAddr dst symbol => ⟨.one dst, .global, "@" ++ symbol⟩
  | load dst addr offset => ⟨.one dst, .load, "[" ++ addr.text ++ " + " ++ toString offset ++ "]"⟩
  | store value addr offset =>
    ⟨.nothing, .store, value.text ++ " -> [" ++ addr.text ++ " + " ++ toString offset ++ "]"⟩
  | loadTake dsts addr => ⟨.several dsts, .loadTake, "[" ++ addr.text ++ "]"⟩
  | stackAlloc dst bytes => ⟨.one dst, .alloca, toString bytes⟩
  | fromNative type dsts srcs =>
    ⟨.several dsts, .fromNative, "t" ++ toString type ++ " (" ++ Var.listText srcs ++ ")"⟩
  | toNative type dsts srcs =>
    ⟨.several dsts, .toNative, "t" ++ toString type ++ " (" ++ Var.listText srcs ++ ")"⟩
  | heapMetadata dst object => ⟨.one dst, .heapMetadata, object.text⟩
  | witnessMethod dst table index =>
    ⟨.one dst, .witnessMethod, table.text ++ "[" ++ toString index ++ "]"⟩
  | tableMethod dst metadata slot =>
    ⟨.one dst, .vtableMethod, metadata.text ++ "[" ++ slot.text ++ "]"⟩
  | authenticate dst value signing => ⟨.one dst, .auth, value.text ++ " " ++ signing.text⟩
  | sign dst value signing => ⟨.one dst, .sign, value.text ++ " " ++ signing.text⟩
  | compareEq dst lhs rhs => ⟨.one dst, .eq, lhs.text ++ ", " ++ rhs.text⟩
  | asyncEntry context bytes =>
    ⟨.nothing, .asyncEntry, context.text ++ " size " ++ toString bytes⟩
  | call callee convention args results =>
    ⟨.several results, .call,
      convention.text ++ " " ++ callee.text ++ "(" ++ Var.listText args ++ ")"⟩
  | callLookup dst args =>
    ⟨.one dst, .callRuntime, lookupRoutine ++ "(" ++ Var.listText args ++ ")"⟩

/-- The line of a terminator. -/
def Terminator.line : Terminator → Line
  | ret values => ⟨.nothing, .ret, if values.isEmpty then none else Var.listText values⟩
  | asyncExit => ⟨.nothing, .asyncExit, none⟩
  | branch cond thenBlock elseBlock =>
    ⟨.nothing, .br, cond.text ++ ", " ++ thenBlock.text ++ ", " ++ elseBlock.text⟩
  | jump target => ⟨.nothing, .jump, target.text⟩
  | unreachable => ⟨.nothing, .unreachable, none⟩

theorem Instr.text_eq (i : Instr) : i.text = i.line.text := by
  rw [← String.toList_inj]
  unfold text line
  cases i <;>
    simp only [Line.text, Lead.text, Keyword.text, Line.ending, Option.elim_some,
      String.toList_append, List.append_assoc] <;> rfl

theorem Terminator.line_ret_cons (v : Var) (vs : List Var) :
    (ret (v :: vs)).line = ⟨.nothing, .ret, Var.listText (v :: vs)⟩ := rfl

theorem Terminator.text_eq (t : Terminator) : t.text = t.line.text := by
  rw [← String.toList_inj]
  rcases t with (- | ⟨v, vs⟩) | - | - | - | -
  case ret.cons =>
    simp only [text, line_ret_cons, Line.text, Lead.text, Keyword.text, Line.ending,
      Option.elim_some, String.toList_append, List.append_assoc]
    rfl
  all_goals
    simp only [text, line, Line.text, Lead.text, Keyword.text, Line.ending, Option.elim_some,
      String.toList_append, List.append_assoc]
    rfl

section Lines

variable {r r' : List Char}

/-- The first character of a lead. -/
def Lead.mark : Lead → Option Char
  | nothing => none
  | one _ => some '%'
  | several _ => some '('

theorem Lead.mark_eq (lead : Lead) (k : Keyword) (r : List Char) :
    (lead.text.toList ++ (k.text.toList ++ r)).head?.filter (fun c => c == '%' || c == '(') =
      lead.mark := by
  cases lead with
  | nothing =>
    obtain ⟨c, rest, hk, hpercent, hparen⟩ := k.exists_toList
    rw [text, String.toList_empty, List.nil_append, hk, List.cons_append, List.head?_cons]
    simp [hpercent, hparen, mark]
  | one dst =>
    rw [text, String.toList_append, Var.toList_text]
    rfl
  | several dsts =>
    rw [text, String.toList_append, String.toList_append]
    rfl

/-- The lead of a line is told by its first character. -/
theorem Lead.append_inj {lead lead' : Lead} {k k' : Keyword}
    (h : lead.text.toList ++ (k.text.toList ++ r) = lead'.text.toList ++ (k'.text.toList ++ r')) :
    lead = lead' ∧ k.text.toList ++ r = k'.text.toList ++ r' := by
  have hmark : lead.mark = lead'.mark := by rw [← lead.mark_eq k r, h, lead'.mark_eq]
  cases lead with
  | nothing =>
    cases lead' with
    | nothing => exact ⟨rfl, h⟩
    | one | several => cases hmark
  | one dst =>
    cases lead' with
    | nothing => cases hmark
    | one dst' =>
      simp only [text, String.toList_append, List.append_assoc] at h
      obtain ⟨rfl, hrest⟩ := var_append_inj h
      exact ⟨rfl, hrest⟩
    | several dsts' => exact absurd (Option.some.inj hmark) (by decide)
  | several dsts =>
    cases lead' with
    | nothing => cases hmark
    | one dst' => exact absurd (Option.some.inj hmark) (by decide)
    | several dsts' =>
      simp only [text, String.toList_append, List.append_assoc] at h
      obtain ⟨rfl, hrest⟩ := listed_var.append_text_inj (List.append_cancel_left h)
      exact ⟨rfl, hrest⟩

/-- The keyword of a line ends at a blank, or with the line. -/
theorem Line.append_inj {l l' : Line}
    (h : l.text.toList ++ ("\n".toList ++ r) = l'.text.toList ++ ("\n".toList ++ r')) :
    l.lead = l'.lead ∧ l.keyword = l'.keyword ∧
      l.ending.toList ++ ("\n".toList ++ r) = l'.ending.toList ++ ("\n".toList ++ r') := by
  have hblank : ∀ (l : Line) (r : List Char),
      GoesOn endsName (l.ending.toList ++ ("\n".toList ++ r)) := by
    rintro ⟨lead, keyword, operands⟩ r
    cases operands with
    | none => exact ⟨_, _, rfl, rfl⟩
    | some operands =>
      rw [ending, Option.elim_some, String.toList_append, List.append_assoc]
      exact goesOn_append (by decide)
  simp only [text, String.toList_append, List.append_assoc] at h
  obtain ⟨hlead, hline⟩ := Lead.append_inj h
  obtain ⟨hkeyword, hending⟩ :=
    unbroken_append_inj l.keyword.unbroken l'.keyword.unbroken (hblank l r) (hblank l' r') hline
  refine ⟨hlead, ?_, hending⟩
  have hsame := congrArg Keyword.ofText? hkeyword
  rwa [Keyword.ofText?_text, Keyword.ofText?_text, Option.some.injEq] at hsame

theorem unbroken_convention (c : Convention) : Unbroken c.text := by cases c <;> decide

theorem Convention.text_injective {c c' : Convention} (h : c.text = c'.text) : c = c' := by
  have hsame := congrArg ofText? h
  rwa [ofText?_text, ofText?_text, Option.some.injEq] at hsame

/-- What stands after the keyword of an instruction. -/
def Instr.operands (i : Instr) : String := i.line.operands.getD ""

theorem Instr.ending_eq (i : Instr) : i.line.ending = " " ++ i.operands := by cases i <;> rfl

/-- The keyword tells what the operands are. -/
theorem Instr.line_append_inj {i j : Instr} (hi : ∀ name ∈ i.symbols, Unbroken name)
    (hj : ∀ name ∈ j.symbols, Unbroken name)
    (h : i.line.text.toList ++ ("\n".toList ++ r) = j.line.text.toList ++ ("\n".toList ++ r')) :
    i = j ∧ r = r' := by
  obtain ⟨hlead, hkeyword, hending⟩ := Line.append_inj h
  rw [ending_eq, ending_eq, String.toList_append, String.toList_append, List.append_assoc,
    List.append_assoc] at hending
  have hoperands := List.append_cancel_left hending
  clear h hending
  cases i with
  | const dst value =>
    cases j with
    | const dst' value' =>
      cases hlead
      simp only [operands, line, Option.getD_some] at hoperands
      obtain ⟨hvalue, hrest⟩ := hex_append_inj hoperands
      obtain rfl := UInt64.toNat_inj.mp hvalue
      exact ⟨rfl, hrest⟩
    | _ => cases hkeyword
  | globalAddr dst symbol =>
    cases j with
    | globalAddr dst' symbol' =>
      cases hlead
      simp only [operands, line, Option.getD_some, String.toList_append, List.append_assoc]
        at hoperands
      obtain ⟨rfl, hrest⟩ := name_append_inj (hi _ List.mem_cons_self)
        (hj _ List.mem_cons_self) (List.append_cancel_left hoperands)
      exact ⟨rfl, hrest⟩
    | _ => cases hkeyword
  | load dst addr offset =>
    cases j with
    | load dst' addr' offset' =>
      cases hlead
      simp only [operands, line, Option.getD_some, String.toList_append, List.append_assoc]
        at hoperands
      obtain ⟨rfl, hoffset⟩ := var_append_inj (List.append_cancel_left hoperands)
      obtain ⟨rfl, hrest⟩ := number_append_inj hoffset
      exact ⟨rfl, List.append_cancel_left hrest⟩
    | _ => cases hkeyword
  | store value addr offset =>
    cases j with
    | store value' addr' offset' =>
      cases hlead
      simp only [operands, line, Option.getD_some, String.toList_append, List.append_assoc]
        at hoperands
      obtain ⟨rfl, haddr⟩ := var_append_inj hoperands
      obtain ⟨rfl, hoffset⟩ := var_append_inj haddr
      obtain ⟨rfl, hrest⟩ := number_append_inj hoffset
      exact ⟨rfl, List.append_cancel_left hrest⟩
    | _ => cases hkeyword
  | loadTake dsts addr =>
    cases j with
    | loadTake dsts' addr' =>
      cases hlead
      simp only [operands, line, Option.getD_some, String.toList_append, List.append_assoc]
        at hoperands
      obtain ⟨rfl, hrest⟩ := var_append_inj (List.append_cancel_left hoperands)
      exact ⟨rfl, List.append_cancel_left hrest⟩
    | _ => cases hkeyword
  | stackAlloc dst bytes =>
    cases j with
    | stackAlloc dst' bytes' =>
      cases hlead
      simp only [operands, line, Option.getD_some] at hoperands
      obtain ⟨rfl, hrest⟩ := number_append_inj hoperands
      exact ⟨rfl, hrest⟩
    | _ => cases hkeyword
  | fromNative type dsts srcs =>
    cases j with
    | fromNative type' dsts' srcs' =>
      cases hlead
      simp only [operands, line, Option.getD_some, String.toList_append, List.append_assoc]
        at hoperands
      obtain ⟨rfl, hsrcs⟩ := number_append_inj (List.append_cancel_left hoperands)
      obtain ⟨rfl, hrest⟩ := listed_var.append_text_inj hsrcs
      exact ⟨rfl, List.append_cancel_left hrest⟩
    | _ => cases hkeyword
  | toNative type dsts srcs =>
    cases j with
    | toNative type' dsts' srcs' =>
      cases hlead
      simp only [operands, line, Option.getD_some, String.toList_append, List.append_assoc]
        at hoperands
      obtain ⟨rfl, hsrcs⟩ := number_append_inj (List.append_cancel_left hoperands)
      obtain ⟨rfl, hrest⟩ := listed_var.append_text_inj hsrcs
      exact ⟨rfl, List.append_cancel_left hrest⟩
    | _ => cases hkeyword
  | heapMetadata dst object =>
    cases j with
    | heapMetadata dst' object' =>
      cases hlead
      simp only [operands, line, Option.getD_some] at hoperands
      obtain ⟨rfl, hrest⟩ := var_append_inj hoperands
      exact ⟨rfl, hrest⟩
    | _ => cases hkeyword
  | witnessMethod dst table index =>
    cases j with
    | witnessMethod dst' table' index' =>
      cases hlead
      simp only [operands, line, Option.getD_some, String.toList_append, List.append_assoc]
        at hoperands
      obtain ⟨rfl, hindex⟩ := var_append_inj hoperands
      obtain ⟨rfl, hrest⟩ := number_append_inj hindex
      exact ⟨rfl, List.append_cancel_left hrest⟩
    | _ => cases hkeyword
  | tableMethod dst metadata slot =>
    cases j with
    | tableMethod dst' metadata' slot' =>
      cases hlead
      simp only [operands, line, Option.getD_some, String.toList_append, List.append_assoc]
        at hoperands
      obtain ⟨rfl, hslot⟩ := var_append_inj hoperands
      obtain ⟨rfl, hrest⟩ := slot_append_inj hi hj hslot
      exact ⟨rfl, List.append_cancel_left hrest⟩
    | _ => cases hkeyword
  | authenticate dst value signing =>
    cases j with
    | authenticate dst' value' signing' =>
      cases hlead
      simp only [operands, line, Option.getD_some, String.toList_append, List.append_assoc]
        at hoperands
      obtain ⟨rfl, hsigning⟩ := var_append_inj hoperands
      obtain ⟨rfl, hrest⟩ := signing_append_inj hsigning
      exact ⟨rfl, hrest⟩
    | _ => cases hkeyword
  | sign dst value signing =>
    cases j with
    | sign dst' value' signing' =>
      cases hlead
      simp only [operands, line, Option.getD_some, String.toList_append, List.append_assoc]
        at hoperands
      obtain ⟨rfl, hsigning⟩ := var_append_inj hoperands
      obtain ⟨rfl, hrest⟩ := signing_append_inj hsigning
      exact ⟨rfl, hrest⟩
    | _ => cases hkeyword
  | compareEq dst lhs rhs =>
    cases j with
    | compareEq dst' lhs' rhs' =>
      cases hlead
      simp only [operands, line, Option.getD_some, String.toList_append, List.append_assoc]
        at hoperands
      obtain ⟨rfl, hrhs⟩ := var_append_inj hoperands
      obtain ⟨rfl, hrest⟩ := var_append_inj hrhs
      exact ⟨rfl, hrest⟩
    | _ => cases hkeyword
  | asyncEntry context bytes =>
    cases j with
    | asyncEntry context' bytes' =>
      cases hlead
      simp only [operands, line, Option.getD_some, String.toList_append, List.append_assoc]
        at hoperands
      obtain ⟨rfl, hbytes⟩ := var_append_inj hoperands
      obtain ⟨rfl, hrest⟩ := number_append_inj hbytes
      exact ⟨rfl, hrest⟩
    | _ => cases hkeyword
  | call callee convention args results =>
    cases j with
    | call callee' convention' args' results' =>
      cases hlead
      simp only [operands, line, Option.getD_some, String.toList_append, List.append_assoc]
        at hoperands
      obtain ⟨hconvention, hcallee⟩ :=
        name_append_inj (unbroken_convention _) (unbroken_convention _) hoperands
      obtain rfl := Convention.text_injective hconvention
      obtain ⟨rfl, hargs⟩ := var_append_inj hcallee
      obtain ⟨rfl, hrest⟩ := listed_var.append_text_inj hargs
      exact ⟨rfl, List.append_cancel_left hrest⟩
    | _ => cases hkeyword
  | callLookup dst args =>
    cases j with
    | callLookup dst' args' =>
      cases hlead
      simp only [operands, line, Option.getD_some, String.toList_append, List.append_assoc]
        at hoperands
      obtain ⟨rfl, hrest⟩ :=
        listed_var.append_text_inj (List.append_cancel_left (List.append_cancel_left hoperands))
      exact ⟨rfl, List.append_cancel_left hrest⟩
    | _ => cases hkeyword

/-- A line does not end where another one has operands. -/
theorem newline_ne_blank {operands : String} :
    "".toList ++ ("\n".toList ++ r) ≠ (" " ++ operands).toList ++ r' := by
  intro h
  rw [String.toList_append] at h
  have hchar : '\n' = ' ' := (List.cons.inj h).1
  revert hchar
  decide

theorem Terminator.line_append_inj {t u : Terminator}
    (h : t.line.text.toList ++ ("\n".toList ++ r) = u.line.text.toList ++ ("\n".toList ++ r')) :
    t = u ∧ r = r' := by
  obtain ⟨-, hkeyword, hending⟩ := Line.append_inj h
  clear h
  cases t with
  | ret vs =>
    cases u with
    | ret us =>
      cases vs with
      | nil =>
        cases us with
        | nil => exact ⟨rfl, List.append_cancel_left hending⟩
        | cons u us => exact absurd hending newline_ne_blank
      | cons v vs =>
        cases us with
        | nil => exact absurd hending.symm newline_ne_blank
        | cons u us =>
          simp only [line_ret_cons, Line.ending, Option.elim_some, String.toList_append,
            List.append_assoc] at hending
          obtain ⟨heq, hrest⟩ := listed_var.append_text_inj (List.append_cancel_left hending)
          rw [heq]
          exact ⟨rfl, hrest⟩
    | _ => cases hkeyword
  | asyncExit =>
    cases u with
    | asyncExit => exact ⟨rfl, List.append_cancel_left hending⟩
    | _ => cases hkeyword
  | branch cond thenBlock elseBlock =>
    cases u with
    | branch cond' thenBlock' elseBlock' =>
      simp only [line, Line.ending, Option.elim_some, String.toList_append, List.append_assoc]
        at hending
      obtain ⟨rfl, hthen⟩ := var_append_inj (List.append_cancel_left hending)
      obtain ⟨rfl, helse⟩ := block_append_inj hthen
      obtain ⟨rfl, hrest⟩ := block_append_inj helse
      exact ⟨rfl, hrest⟩
    | _ => cases hkeyword
  | jump target =>
    cases u with
    | jump target' =>
      simp only [line, Line.ending, Option.elim_some, String.toList_append, List.append_assoc]
        at hending
      obtain ⟨rfl, hrest⟩ := block_append_inj (List.append_cancel_left hending)
      exact ⟨rfl, hrest⟩
    | _ => cases hkeyword
  | unreachable =>
    cases u with
    | unreachable => exact ⟨rfl, List.append_cancel_left hending⟩
    | _ => cases hkeyword

theorem Instr.keyword_ne (i : Instr) (t : Terminator) : i.line.keyword ≠ t.line.keyword := by
  cases i <;> cases t <;> nofun

theorem Instr.text_append_inj {i j : Instr} (hi : ∀ name ∈ i.symbols, Unbroken name)
    (hj : ∀ name ∈ j.symbols, Unbroken name)
    (h : i.text.toList ++ ("\n".toList ++ r) = j.text.toList ++ ("\n".toList ++ r')) :
    i = j ∧ r = r' := by
  rw [text_eq, text_eq] at h
  exact line_append_inj hi hj h

theorem Terminator.text_append_inj {t u : Terminator}
    (h : t.text.toList ++ ("\n".toList ++ r) = u.text.toList ++ ("\n".toList ++ r')) :
    t = u ∧ r = r' := by
  rw [text_eq, text_eq] at h
  exact line_append_inj h

theorem Instr.text_append_ne (i : Instr) (t : Terminator) :
    i.text.toList ++ ("\n".toList ++ r) ≠ t.text.toList ++ ("\n".toList ++ r') := by
  intro h
  rw [text_eq, Terminator.text_eq] at h
  exact i.keyword_ne t (Line.append_inj h).2.1

end Lines

/-! ### Blocks -/

/-- The names in a block. -/
def Block.symbols (b : Block) : List String := b.body.flatMap Instr.symbols

section Blocks

variable {r r' : List Char}

theorem toList_join_nil {α : Type} (text : α → String) :
    (String.join (([] : List α).map text)).toList ++ r = r := rfl

theorem toList_join_cons {α : Type} (text : α → String) (a : α) (rest : List α) :
    (String.join ((a :: rest).map text)).toList =
      (text a).toList ++ (String.join (rest.map text)).toList := by
  rw [String.toList_join, String.toList_join, List.map_cons, List.flatMap_cons]

/-- A line of a block, with the space before it and the line break after it. -/
def indented (text : String) : String := "  " ++ text ++ "\n"

theorem toList_indented (text : String) (r : List Char) :
    (indented text).toList ++ r = "  ".toList ++ (text.toList ++ ("\n".toList ++ r)) := by
  simp only [indented, String.toList_append, List.append_assoc]

/-- The instructions of a block end where its terminator stands. -/
theorem body_append_inj {body body' : List Instr} {t t' : Terminator}
    (hbody : ∀ name ∈ body.flatMap Instr.symbols, Unbroken name)
    (hbody' : ∀ name ∈ body'.flatMap Instr.symbols, Unbroken name)
    (h : (String.join (body.map fun i => indented i.text)).toList ++
        ((indented t.text).toList ++ r) =
      (String.join (body'.map fun i => indented i.text)).toList ++
        ((indented t'.text).toList ++ r')) :
    body = body' ∧ t = t' ∧ r = r' := by
  induction body generalizing body' with
  | nil =>
    rw [toList_join_nil, toList_indented t.text] at h
    cases body' with
    | nil =>
      rw [toList_join_nil, toList_indented t'.text] at h
      obtain ⟨rfl, hrest⟩ := Terminator.text_append_inj (List.append_cancel_left h)
      exact ⟨rfl, rfl, hrest⟩
    | cons j rest' =>
      rw [toList_join_cons, List.append_assoc, toList_indented j.text] at h
      exact absurd (List.append_cancel_left h).symm (j.text_append_ne t)
  | cons i rest ih =>
    rw [toList_join_cons, List.append_assoc, toList_indented i.text] at h
    cases body' with
    | nil =>
      rw [toList_join_nil, toList_indented t'.text] at h
      exact absurd (List.append_cancel_left h) (i.text_append_ne t')
    | cons j rest' =>
      rw [toList_join_cons, List.append_assoc, toList_indented j.text] at h
      rw [List.flatMap_cons, List.forall_mem_append] at hbody hbody'
      obtain ⟨rfl, hlines⟩ :=
        Instr.text_append_inj hbody.1 hbody'.1 (List.append_cancel_left h)
      obtain ⟨rfl, rfl, hrest⟩ := ih hbody.2 hbody'.2 hlines
      exact ⟨rfl, rfl, hrest⟩

theorem Block.text_append_inj {b b' : Block} (hb : ∀ name ∈ b.symbols, Unbroken name)
    (hb' : ∀ name ∈ b'.symbols, Unbroken name)
    (h : b.text.toList ++ r = b'.text.toList ++ r') : b = b' ∧ r = r' := by
  have htext : ∀ (b : Block) (r : List Char), b.text.toList ++ r = b.id.text.toList ++
      (":\n".toList ++ ((String.join (b.body.map fun i => indented i.text)).toList ++
        ((indented b.terminator.text).toList ++ r))) := by
    intro b r
    simp only [text, indented, String.toList_append, List.append_assoc]
  obtain ⟨id, body, t⟩ := b
  obtain ⟨id', body', t'⟩ := b'
  rw [htext, htext] at h
  obtain ⟨rfl, hlines⟩ := block_append_inj h
  obtain ⟨rfl, rfl, hrest⟩ := body_append_inj hb hb' hlines
  exact ⟨rfl, hrest⟩

/-- The blocks end where no label follows. -/
theorem blocks_append_inj {blocks blocks' : List Block}
    (hblocks : ∀ name ∈ blocks.flatMap Block.symbols, Unbroken name)
    (hblocks' : ∀ name ∈ blocks'.flatMap Block.symbols, Unbroken name)
    (h : (String.join (blocks.map Block.text)).toList ++ "\x7d".toList =
      (String.join (blocks'.map Block.text)).toList ++ "\x7d".toList) : blocks = blocks' := by
  have hlabel : ∀ (b : Block) (r : List Char), "\x7d".toList ≠ b.text.toList ++ r := by
    intro b r heq
    simp only [Block.text, BlockId.text, String.toList_append, List.append_assoc] at heq
    have hchar : '\x7d' = 'b' := (List.cons.inj heq).1
    revert hchar
    decide
  induction blocks generalizing blocks' with
  | nil =>
    cases blocks' with
    | nil => rfl
    | cons b' rest' =>
      rw [toList_join_nil, toList_join_cons, List.append_assoc] at h
      exact absurd h (hlabel b' _)
  | cons b rest ih =>
    rw [toList_join_cons, List.append_assoc] at h
    cases blocks' with
    | nil => exact absurd h.symm (hlabel b _)
    | cons b' rest' =>
      rw [toList_join_cons, List.append_assoc] at h
      rw [List.flatMap_cons, List.forall_mem_append] at hblocks hblocks'
      obtain ⟨rfl, hrest⟩ := Block.text_append_inj hblocks.1 hblocks'.1 h
      rw [ih hblocks.2 hblocks'.2 hrest]

end Blocks

/-! ### Functions -/

/-- Two functions have one text exactly if they have the same name, convention, parameters
and blocks. -/
theorem Function.text_eq_iff {f g : Function} (hf : ∀ name ∈ f.symbols, Unbroken name)
    (hg : ∀ name ∈ g.symbols, Unbroken name) :
    f.text = g.text ↔ f.name = g.name ∧ f.convention = g.convention ∧ f.params = g.params ∧
      f.blocks = g.blocks := by
  constructor
  · intro h
    rw [symbols, List.forall_mem_cons] at hf hg
    rw [← String.toList_inj] at h
    simp only [text, String.toList_append, List.append_assoc] at h
    obtain ⟨hname, hconvention⟩ := name_append_inj hf.1 hg.1 (List.append_cancel_left h)
    obtain ⟨hwords, hparams⟩ :=
      name_append_inj (unbroken_convention _) (unbroken_convention _) hconvention
    obtain ⟨hsame, hblocks⟩ := listed_param.append_text_inj hparams
    have hbodies : ∀ f : Function, f.instructions.flatMap Instr.symbols =
        f.blocks.flatMap Block.symbols := fun f => List.flatMap_assoc
    rw [hbodies] at hf hg
    exact ⟨hname, Convention.text_injective hwords, hsame, blocks_append_inj hf.2 hg.2 hblocks⟩
  · rintro ⟨hname, hconvention, hparams, hblocks⟩
    rw [text, text, hname, hconvention, hparams, hblocks]

/-! ### One thunk and two others -/

namespace Listings

/-- A call through a table of which only the bounds are known. -/
def thunk : Function where
  name := "area"
  convention := .ordinary
  params := [⟨0, .ptr⟩]
  blocks := [
    ⟨0, [.heapMetadata 1 0, .tableMethod 2 1 (.resilient "bounds" 8), .call 2 .ordinary [0] [3]],
      .ret [3]⟩]
  varKinds := [.ptr, .ptr, .ptr, .i64]

/-- The same call, after a variable was made that nothing defines. -/
def wasteful : Function := { thunk with varKinds := thunk.varKinds ++ [.i64] }

/-- A call through the eighth word of the table. -/
def settled : Function where
  name := "area"
  convention := .ordinary
  params := [⟨0, .ptr⟩]
  blocks := [
    ⟨0, [.heapMetadata 1 0, .tableMethod 2 1 (.fixed 8), .call 2 .ordinary [0] [3]], .ret [3]⟩]
  varKinds := [.ptr, .ptr, .ptr, .i64]

theorem text_eq_iff_thunk :
    (∀ name ∈ thunk.symbols, Unbroken name) ∧ (∀ name ∈ wasteful.symbols, Unbroken name) ∧
      (∀ name ∈ settled.symbols, Unbroken name) ∧ thunk.text = wasteful.text ∧
      thunk.text ≠ settled.text := by
  have hthunk : ∀ name ∈ thunk.symbols, Unbroken name := by decide
  have hwasteful : ∀ name ∈ wasteful.symbols, Unbroken name := by decide
  have hsettled : ∀ name ∈ settled.symbols, Unbroken name := by decide
  refine ⟨hthunk, hwasteful, hsettled, ?_, fun h => ?_⟩
  · exact (Function.text_eq_iff hthunk hwasteful).mpr ⟨rfl, rfl, rfl, rfl⟩
  · exact absurd ((Function.text_eq_iff hthunk hsettled).mp h).2.2.2 (by decide)

end Listings

end Dispatch
