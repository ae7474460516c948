import Dispatch.Proofs.Hierarchy
import Dispatch.Proofs.Linking
import Dispatch.Proofs.Symbols

/-!
# Tables in memory

What memory holds for a class and for a conformance, and that laying out a module puts
it there.  Tables are laid out in fresh memory; the only word below it that laying out
a class writes is the one that says where the class's own entries start, and that word
belongs to a symbol of this class alone.

## Main statements

* `World.ClassAt`, `World.WitnessAt` — the metadata of a class, a witness table.
* `World.ends_layOutClass`, `World.ends_instantiateTo` — laying out classes.
* `World.Tabled`, `World.tabled_of_boot` — all tables are there after booting, and
  `World.Tabled.keeps` — they stay as long as nobody writes to them.
-/

namespace Dispatch

/-- The word that a table holds for an entry of `m` whose implementation has the
address `a`. -/
def Module.entryWord (u : Module) (m : Method) (a : Word) : Attempt Word :=
  match u.options.signingKey with
  | none => .ok a
  | some key => do return (← u.hierarchy.signing u.pool key m).sign a

namespace World

variable {α : Type} {u : Module} {w w' w'' : World} {name : String} {t : VTable} {base : Word}
  {changed : Nat → Prop}

/-! ### What tables hold -/

/-- The word for the superclass in the metadata of a class. -/
def ParentWord (w : World) (decl : ClassDecl) (a : Word) : Prop :=
  match decl.superclass with
  | none => a = 0
  | some parent => w.machine.classes.get? parent = some a

/-- The word that a table holds for an entry. -/
def EntryWord (u : Module) (e : VTableEntry) (word : Word) (w : World) : Prop :=
  ∃ a, w.link? e.implementation = some a ∧ u.entryWord e.method a = .ok word

/-- The words of the metadata of a class. -/
structure Filled (u : Module) (w : World) (base parent : Word) (descriptor : String)
    (entries : List VTableEntry) : Prop where
  descriptor : ∃ a, w.link? descriptor = some a ∧ w.memory.read base = .ok a
  parent : w.memory.read (base.plus 8) = .ok parent
  entries : ∀ k e, entries[k]? = some e → ∃ word, EntryWord u e word w ∧
    w.memory.read (base.plus (8 * (tableHeaderWords + k))) = .ok word

/-- The metadata of a class, and the word that says where its own entries start. -/
structure ClassAt (u : Module) (w : World) (name : String) (t : VTable) (metadata : Word) :
    Prop where
  table : u.hierarchy.vtable name = .ok t
  owns : w.memory.Owns metadata (8 * t.words)
  filled : ∃ decl parent, u.hierarchy.classNamed name = .ok decl ∧ w.ParentWord decl parent ∧
    Filled u w metadata parent (classSymbol u.hierarchy.module name .typeDescriptor) t.entries
  bounds : ∃ a, w.link? (u.hierarchy.boundsSymbol name) = some a ∧
    w.memory.read a = .ok (UInt64.ofNat (t.ownStart * wordBytes))

/-- The witness table of a conformance. -/
structure WitnessAt (w : World) (c : Conformance) (base : Word) : Prop where
  owns : w.memory.Owns base (8 * (witnessHeaderWords + c.witnesses.length))
  entries : ∀ k symbol, c.witnesses[k]? = some symbol → ∃ a, w.link? symbol = some a ∧
    w.memory.read (base.plus (8 * (witnessHeaderWords + k))) = .ok a

/-- The world `w'` has every symbol and every class that `w` has, and memory in which
only the given addresses have changed. -/
structure Keeps (changed : Nat → Prop) (w w' : World) : Prop where
  links : ∀ symbol a, w.link? symbol = some a → w'.link? symbol = some a
  classes : ∀ name a, w.machine.classes.get? name = some a →
    w'.machine.classes.get? name = some a
  evolves : w.memory.Evolves changed w'.memory

theorem Extends.keeps (h : Extends changed w w') : Keeps changed w w' :=
  ⟨h.links, fun _ _ hc => by rw [h.classes_eq]; exact hc, h.evolves⟩

theorem ParentWord.keeps {decl : ClassDecl} {a : Word} (h : w.ParentWord decl a)
    (hk : Keeps changed w w') : w'.ParentWord decl a := by
  unfold ParentWord at *
  cases hs : decl.superclass with
  | none => simpa [hs] using h
  | some parent =>
    rw [hs] at h
    exact hk.classes _ _ h

theorem EntryWord.keeps {e : VTableEntry} {word : Word} (h : EntryWord u e word w)
    (hk : Keeps changed w w') : EntryWord u e word w' :=
  h.imp fun _ h => ⟨hk.links _ _ h.1, h.2⟩

theorem Filled.keeps {parent : Word} {descriptor : String} {entries : List VTableEntry}
    (h : Filled u w base parent descriptor entries) (hw : w.memory.Sound)
    (ho : w.memory.Owns base (8 * (tableHeaderWords + entries.length)))
    (hk : Keeps changed w w')
    (hc : ∀ n, base.toNat ≤ n → n < base.toNat + 8 * (tableHeaderWords + entries.length) →
      ¬ changed n) : Filled u w' base parent descriptor entries := by
  have hread : ∀ k v, k < tableHeaderWords + entries.length →
      w.memory.read (base.plus (8 * k)) = .ok v → w'.memory.read (base.plus (8 * k)) = .ok v := by
    intro k v hlt hv
    refine hk.evolves.read_ok hw hv ?_
    rw [ho.toNat_plus hw (by omega)]
    exact hc _ (by omega) (by omega)
  refine ⟨?_, ?_, ?_⟩
  · obtain ⟨a, ha, hr⟩ := h.descriptor
    refine ⟨a, hk.links _ _ ha, ?_⟩
    have := hread 0 a (by simp only [tableHeaderWords]; omega) (by simpa using hr)
    simpa using this
  · exact hread 1 parent (by simp only [tableHeaderWords]; omega) h.parent
  · intro k e he
    obtain ⟨word, hword, hr⟩ := h.entries k e he
    have hlt := (List.getElem?_eq_some_iff.mp he).1
    exact ⟨word, hword.keeps hk, hread _ word (by omega) hr⟩

/-- The metadata of a class stays as long as nobody writes to it. -/
theorem ClassAt.keeps (h : ClassAt u w name t base) (hw : w.memory.Sound)
    (hk : Keeps changed w w')
    (htable : ∀ n, base.toNat ≤ n → n < base.toNat + 8 * t.words → ¬ changed n)
    (hbounds : ∀ a, w.link? (u.hierarchy.boundsSymbol name) = some a → ¬ changed a.toNat) :
    ClassAt u w' name t base := by
  refine ⟨h.table, hk.evolves.owns h.owns, ?_, ?_⟩
  · obtain ⟨decl, parent, hd, hp, hfilled⟩ := h.filled
    exact ⟨decl, parent, hd, hp.keeps hk, hfilled.keeps hw h.owns hk htable⟩
  · obtain ⟨a, ha, hr⟩ := h.bounds
    exact ⟨a, hk.links _ _ ha, hk.evolves.read_ok hw hr (hbounds a ha)⟩

theorem WitnessAt.keeps {c : Conformance} (h : WitnessAt w c base) (hw : w.memory.Sound)
    (hk : Keeps (fun _ => False) w w') : WitnessAt w' c base where
  owns := hk.evolves.owns h.owns
  entries k symbol hs := by
    obtain ⟨a, ha, hr⟩ := h.entries k symbol hs
    exact ⟨a, hk.links _ _ ha, hk.evolves.read_ok hw hr id⟩

/-! ### Writing words one by one -/

/-- Compute words and write them, the first of which has the index `start`. -/
def writeEach (f : α → Run Word) (base : Word) (start : Nat) : List α → Run Unit
  | [] => return ()
  | x :: rest => do
    let word ← f x
    write (← Memory.wordAddress base start) word
    writeEach f base (start + 1) rest

theorem writeEntries_eq (base : Word) (es : List VTableEntry) :
    ∀ start, writeEntries base start es = writeEach tableWord base start es := by
  induction es with
  | nil => intro start; rfl
  | cons e rest ih => intro start; simp only [writeEntries, writeEach, ih]

theorem writeWitnesses_eq (base : Word) (symbols : List String) :
    ∀ start, writeWitnesses base start symbols = writeEach addressOf base start symbols := by
  induction symbols with
  | nil => intro start; rfl
  | cons s rest ih => intro start; simp only [writeWitnesses, writeEach, ih]

theorem wordAddress_zero (base : Word) : Memory.wordAddress base 0 = .ok base := by
  have hlt := base.toNat_lt
  rw [Memory.wordAddress_eq (by omega), Nat.mul_zero, Word.plus_zero]

/-- A write that succeeds is to a word of the region. -/
theorem ends_write_index {words index : Nat} {v : Word} (hw : w.memory.Sound)
    (ho : w.memory.Owns base (8 * words)) (hi : index ≤ max words 1) :
    Step.Ends (do write (← Memory.wordAddress base index) v : Run Unit) w (fun _ w' =>
      index < max words 1 ∧ Extends (fun n => n = base.toNat + 8 * index) w w' ∧
      w'.machine.symbols = w.machine.symbols ∧
      w'.memory.read (base.plus (8 * index)) = .ok v) fun _ _ => True := by
  have hend := ho.not_isMapped_end hw
  have hroom := ho.end_le hw
  have hlt := w.memory.next.toNat_lt
  rw [Memory.wordAddress_eq (by omega), Step.ends_bind, Step.ends_liftM_ok, write, ends_withMemory]
  cases hm : w.memory.isMapped (base.plus (8 * index)) with
  | false => exact Step.ends_of_error (Memory.write_error hm v) trivial
  | true =>
    have hne : index ≠ max words 1 := by
      rintro rfl
      rw [hend] at hm
      cases hm
    refine Step.ends_of_ok (Memory.write_ok hm v) ⟨by omega, extends_setMemory ?_, rfl, ?_⟩
    · refine Memory.evolves_put hm _ ?_
      rw [Word.toNat_plus (by omega)]
    · exact Memory.read_put_self hm v

/-- Words that are computed by asking for addresses, and written to the words of one
region. -/
theorem ends_writeEach {f : α → Run Word} {P : α → Word → World → Prop} {words : Nat}
    (hf : ∀ x w, w.Linked → w.module = u → Step.Ends (f x) w
      (fun v w' => w'.Linked ∧ Extends (fun _ => False) w w' ∧ P x v w') fun _ _ => True)
    (hP : ∀ x v w w' changed, Extends changed w w' → P x v w → P x v w') (xs : List α) :
    ∀ {start : Nat} {w : World}, w.Linked → w.module = u → w.memory.Owns base (8 * words) →
      start ≤ max words 1 →
      Step.Ends (writeEach f base start xs) w (fun _ w' => w'.Linked ∧
        Extends (Memory.Within base start xs.length) w w' ∧ start + xs.length ≤ max words 1 ∧
        ∀ k x, xs[k]? = some x → ∃ v, P x v w' ∧
          w'.memory.read (base.plus (8 * (start + k))) = .ok v) fun _ _ => True := by
  induction xs with
  | nil =>
    intro start w hw _ _ hstart
    exact ⟨hw, .refl w _, hstart, by simp⟩
  | cons x rest ih =>
    intro start w hw hu ho hstart
    rw [writeEach, Step.ends_bind]
    refine (hf x w hw hu).imp (fun v w₁ h₁ => ?_) fun _ _ h => h
    obtain ⟨hw₁, hext₁, hx⟩ := h₁
    have ho₁ := hext₁.evolves.owns ho
    rw [← bind_assoc, Step.ends_bind]
    refine (ends_write_index hw₁.sound ho₁ hstart).imp (fun _ w₂ h₂ => ?_) fun _ _ h => h
    obtain ⟨hlt, hext₂, hs₂, hread⟩ := h₂
    have hw₂ : w₂.Linked := hw₁.evolves hs₂ hext₂.evolves
    refine (ih hw₂ (by rw [hext₂.module_eq, hext₁.module_eq, hu])
      (hext₂.evolves.owns ho₁) (show start + 1 ≤ max words 1 by omega)).imp
      (fun _ w₃ h₃ => ?_) fun _ _ h => h
    obtain ⟨hw₃, hext₃, hle, hrest⟩ := h₃
    refine ⟨hw₃, ?_, by rw [List.length_cons]; omega, ?_⟩
    · rw [List.length_cons]
      refine ((hext₁.mono fun _ _ h => h.elim).then hext₂ ?_).then hext₃ ?_
      · rintro n _ rfl
        exact ⟨Nat.le_refl _, by omega⟩
      · rintro n _ ⟨h1, h2⟩
        exact ⟨by omega, by omega⟩
    · intro k y hk
      cases k with
      | zero =>
        cases hk
        refine ⟨v, hP _ _ _ _ _ hext₃ (hP _ _ _ _ _ hext₂ hx), ?_⟩
        refine hext₃.evolves.read_ok hw₂.sound hread ?_
        have hroom := ho₁.end_le hw₁.sound
        have hlt := w₁.memory.next.toNat_lt
        rw [Nat.add_zero, Word.toNat_plus (by omega)]
        rintro ⟨h1, -⟩
        omega
      | succ k =>
        obtain ⟨v, hv, hr⟩ := hrest k y hk
        exact ⟨v, hv, by rw [show start + (k + 1) = start + 1 + k by omega]; exact hr⟩

/-! ### Classes -/

theorem ends_tableWord (hw : w.Linked) (hu : w.module = u) (e : VTableEntry) :
    Step.Ends (tableWord e) w (fun word w' => w'.Linked ∧ Extends (fun _ => False) w w' ∧
      EntryWord u e word w') fun _ _ => True := by
  rw [tableWord, Step.ends_bind]
  refine (ends_addressOf hw e.implementation).imp (fun a w' h => ?_) fun _ _ _ => trivial
  obtain ⟨ha, hw', hext⟩ := h
  rw [Step.ends_bind, Step.ends_get, hext.module_eq, hu]
  cases hk : u.options.signingKey with
  | none =>
    simp only [hk, Step.ends_pure]
    exact ⟨hw', hext, a, ha, by rw [Module.entryWord, hk]⟩
  | some key =>
    simp only [hk, Step.ends_bind, Step.ends_liftM]
    refine ⟨fun signing hs => ⟨hw', hext, a, ha, ?_⟩, fun _ _ => trivial⟩
    rw [Attempt.onMachine_eq_ok] at hs
    rw [Module.entryWord, hk]
    simp only [hs, Attempt.ok_bind, Attempt.pure_eq]

/-- Write the metadata of a class to its region. -/
def fillClass (base parent : Word) (descriptor : String) (entries : List VTableEntry) :
    Run Unit := do
  let descriptor ← addressOf descriptor
  write base descriptor
  write (← Memory.wordAddress base 1) parent
  writeEntries base tableHeaderWords entries

theorem ends_fillClass {parent : Word} {descriptor : String} {entries : List VTableEntry}
    {words : Nat} (hw : w.Linked) (hu : w.module = u) (ho : w.memory.Owns base (8 * words)) :
    Step.Ends (fillClass base parent descriptor entries) w (fun _ w' => w'.Linked ∧
      Extends (fun n => base.toNat ≤ n) w w' ∧
      tableHeaderWords + entries.length ≤ max words 1 ∧
      Filled u w' base parent descriptor entries) fun _ _ => True := by
  rw [fillClass, Step.ends_bind]
  refine (ends_addressOf hw descriptor).imp (fun a w₁ h₁ => ?_) fun _ _ _ => trivial
  obtain ⟨ha, hw₁, hext₁⟩ := h₁
  have ho₁ := hext₁.evolves.owns ho
  rw [show write base a = (do write (← Memory.wordAddress base 0) a) by
    rw [wordAddress_zero]; rfl, Step.ends_bind]
  refine (ends_write_index hw₁.sound ho₁ (by omega)).imp (fun _ w₂ h₂ => ?_) fun _ _ h => h
  obtain ⟨h0, hext₂, hs₂, hread₀⟩ := h₂
  have hw₂ : w₂.Linked := hw₁.evolves hs₂ hext₂.evolves
  have ho₂ := hext₂.evolves.owns ho₁
  rw [← bind_assoc, Step.ends_bind]
  refine (ends_write_index hw₂.sound ho₂ (by omega)).imp (fun _ w₃ h₃ => ?_) fun _ _ h => h
  obtain ⟨h1, hext₃, hs₃, hread₁⟩ := h₃
  have hw₃ : w₃.Linked := hw₂.evolves hs₃ hext₃.evolves
  rw [writeEntries_eq]
  refine (ends_writeEach (u := u) (P := EntryWord u)
    (fun e w hw hu => ends_tableWord hw hu e) ?_ entries hw₃ ?_ (hext₃.evolves.owns ho₂)
    (by simp only [tableHeaderWords]; omega)).imp (fun _ w₄ h₄ => ?_) fun _ _ h => h
  · rintro e word w w' changed hext ⟨a, ha, hword⟩
    exact ⟨a, hext.links _ _ ha, hword⟩
  · rw [hext₃.module_eq, hext₂.module_eq, hext₁.module_eq, hu]
  obtain ⟨hw₄, hext₄, hle, hentries⟩ := h₄
  have hplus : (base.plus 8).toNat = base.toNat + 8 := by
    have hroom := ho.end_le hw.sound
    have hlt := w.memory.next.toNat_lt
    exact Word.toNat_plus (by omega)
  rw [Nat.mul_zero, Word.plus_zero] at hread₀
  refine ⟨hw₄, ?_, hle, ⟨a, ?_, ?_⟩, ?_, hentries⟩
  · refine (((hext₁.mono fun _ _ h => h.elim).then hext₂ ?_).then hext₃ ?_).then hext₄ ?_
    · rintro n _ rfl
      omega
    · rintro n _ rfl
      omega
    · rintro n _ ⟨h1, -⟩
      omega
  · exact hext₄.links _ _ (hext₃.links _ _ (hext₂.links _ _ ha))
  · refine hext₄.evolves.read_ok hw₃.sound (hext₃.evolves.read_ok hw₂.sound hread₀ ?_) ?_
    · omega
    · rintro ⟨h, -⟩
      simp only [tableHeaderWords] at h
      omega
  · refine hext₄.evolves.read_ok hw₃.sound hread₁ ?_
    rintro ⟨h, -⟩
    simp only [tableHeaderWords] at h
    omega

/-- A region of words; a count that does not fit gives fewer. -/
theorem ends_allocWords_mod (words : Nat) :
    Step.Ends (withMemory (Memory.allocWords words)) w (fun base w' =>
      base = w.memory.next ∧
      w' = w.setMemory (w.memory.allocated (8 * (words % Size.limit))) ∧
      w.memory.next.toNat + Region.extent (8 * (words % Size.limit)) + Region.gapBytes < 2 ^ 64)
      fun _ _ => True := by
  by_cases hfits : words % Size.limit * 8 < Size.limit
  · have hmod : Memory.allocWords words = Memory.allocWords (words % Size.limit) := by
      rw [Memory.allocWords, Memory.allocWords, Memory.bytesOfWords, Memory.bytesOfWords,
        Nat.mod_mod]
    rw [hmod]
    refine (ends_allocWords (by omega) fun hroom => ?_).imp (fun _ _ h => h) fun _ _ _ => trivial
    rw [Nat.mul_comm] at hroom ⊢
    exact ⟨rfl, rfl, hroom⟩
  · have hfail : Memory.bytesOfWords words = .error (.trap (.overflow .mul)) := by
      rw [Memory.bytesOfWords, mulSize, Size.mul?, wordBytes, if_neg hfits, Attempt.fits]
    rw [Memory.allocWords, hfail, ends_withMemory, Step.ends_bind]
    trivial

theorem mod_limit_of_le {words : Nat} (h : words ≤ max (words % Size.limit) 1) :
    words % Size.limit = words := by
  by_cases hlt : words < Size.limit
  · exact Nat.mod_eq_of_lt hlt
  · have hmod := Nat.mod_lt words (show 0 < Size.limit by decide)
    have hlimit : 1 < Size.limit := by decide
    omega

/-- A world while its tables are being laid out: the machine of `w₀`, and the metadata
of some classes. -/
structure Booting (w₀ w : World) : Prop where
  rest : w = { w₀ with machine := { w₀.machine with
    memory := w.machine.memory, symbols := w.machine.symbols, classes := w.machine.classes,
    witnessTables := w.machine.witnessTables } }
  linked : w.Linked
  classes : ∀ name metadata, w.machine.classes.get? name = some metadata →
    ∃ t, ClassAt w₀.module w name t metadata

variable {w₀ : World}

theorem Booting.module_eq (h : Booting w₀ w) : w.module = w₀.module := by
  rw [h.rest]

/-- A word of a symbol is not in a larger region. -/
theorem Linked.not_within (hw : w.Linked) {words : Nat} (ho : w.memory.Owns base (8 * words))
    (hwords : 2 ≤ words) {symbol : String} {a : Word} (ha : w.link? symbol = some a) {n : Nat}
    (h1 : base.toNat ≤ n) (h2 : n < base.toNat + 8 * words) : n ≠ a.toNat := by
  have hextent := Memory.le_extent (8 * words)
  have hextent' := Memory.le_extent 8
  rcases ho.apart hw.sound (hw.owns _ _ ha) with ⟨-, h⟩ | h | h <;> omega

theorem two_le_words (t : VTable) : 2 ≤ t.words := Nat.le_add_right _ _

/-- The metadata of other classes stays when the bounds of a class are written. -/
theorem ClassAt.write_bounds (h : ClassAt u w name t base) (hw : w.Linked) {name' : String}
    (hne : name ≠ name') {a : Word}
    (ha : w.link? (u.hierarchy.boundsSymbol name') = some a)
    (hk : Keeps (fun n => n = a.toNat) w w') : ClassAt u w' name t base := by
  refine h.keeps hw.sound hk (fun n => hw.not_within h.owns (two_le_words t) ha) fun b hb heq => ?_
  have hab : b = a := UInt64.toNat_inj.mp heq
  subst hab
  exact hne (classSymbol_injective (hw.apart _ _ _ hb ha))

theorem Booting.extends (h : Booting w₀ w) (hext : Extends (fun _ => False) w w')
    (hw' : w'.Linked) : Booting w₀ w' where
  rest := by rw [hext.rest, h.rest]
  linked := hw'
  classes name metadata hget := by
    obtain ⟨t, ht⟩ := h.classes name metadata (by rw [← hext.classes_eq]; exact hget)
    exact ⟨t, ht.keeps h.linked.sound hext.keeps (fun _ _ _ h => h) fun _ _ h => h⟩

/-- The world with one more class, and with the word that says where the class's own
entries start. -/
def enrolled (w : World) (name : String) (base bounds start : Word) : World :=
  { w with machine := { w.machine with
      memory := w.memory.put bounds (some start)
      classes := w.machine.classes.insert name base } }

theorem Booting.enrolled {parent bounds : Word} {decl : ClassDecl} (h : Booting w₀ w)
    (hnew : w.machine.classes.get? name = none) (ht : w₀.module.hierarchy.vtable name = .ok t)
    (ho : w.memory.Owns base (8 * t.words))
    (hdecl : w₀.module.hierarchy.classNamed name = .ok decl) (hparent : w.ParentWord decl parent)
    (hfilled : Filled w₀.module w base parent
      (classSymbol w₀.module.hierarchy.module name .typeDescriptor) t.entries)
    (hbounds : w.link? (w₀.module.hierarchy.boundsSymbol name) = some bounds) :
    Booting w₀ (w.enrolled name base bounds (UInt64.ofNat (t.ownStart * wordBytes))) := by
  have hmapped : w.memory.isMapped bounds = true := by
    have := (h.linked.owns _ _ hbounds).isMapped h.linked.sound (show 0 < max 8 1 by decide)
    rwa [Word.plus_zero] at this
  have hev : w.memory.Evolves (fun n => n = bounds.toNat) _ :=
    Memory.evolves_put hmapped (some (UInt64.ofNat (t.ownStart * wordBytes))) rfl
  have hkeeps : Keeps (fun n => n = bounds.toNat) w
      (w.enrolled name base bounds (UInt64.ofNat (t.ownStart * wordBytes))) := by
    refine ⟨fun _ _ h => h, fun name' a hget => ?_, hev⟩
    refine (Table.get?_insert _ _ _ _).trans ?_
    rw [if_neg]
    · exact hget
    · rintro rfl
      rw [hnew] at hget
      cases hget
  refine ⟨by rw [World.enrolled, h.rest], h.linked.evolves rfl hev, fun name' metadata hget => ?_⟩
  rw [World.enrolled, Table.get?_insert] at hget
  split at hget
  · next heq =>
    cases hget
    subst heq
    refine ⟨t, ht, hev.owns ho, ⟨decl, parent, hdecl, hparent.keeps hkeeps, ?_⟩, bounds, hbounds,
      Memory.read_put_self hmapped _⟩
    exact hfilled.keeps h.linked.sound ho hkeeps fun n =>
      h.linked.not_within ho (two_le_words t) hbounds
  · next hne =>
    obtain ⟨t', ht'⟩ := h.classes name' metadata hget
    exact ⟨t', ht'.write_bounds h.linked (fun h => hne h.symm) hbounds hkeeps⟩

theorem layOutClass_eq (name : String) (parent : Word) :
    layOutClass name parent = (do
      let h := (← get).module.hierarchy
      let table ← (h.vtable name).onMachine
      let base ← withMemory (Memory.allocWords table.words)
      let descriptor ← (h.typeDescriptor name).onMachine
      fillClass base parent descriptor table.entries
      let bounds ← addressOf (h.boundsSymbol name)
      write bounds (UInt64.ofNat (table.ownStart * wordBytes))
      modify fun w =>
        { w with machine := { w.machine with classes := w.machine.classes.insert name base } }
      return base) := by
  simp only [layOutClass, fillClass, bind_assoc]

/-- Laying out a class adds its metadata to those that are there. -/
theorem ends_layOutClass {parent : Word} (hw : Booting w₀ w)
    (hnew : w.machine.classes.get? name = none)
    (hparent : ∀ decl, w₀.module.hierarchy.classNamed name = .ok decl →
      w.ParentWord decl parent) :
    Step.Ends (layOutClass name parent) w (fun base w' => Booting w₀ w' ∧
      w'.machine.classes = w.machine.classes.insert name base ∧
      w'.machine.witnessTables = w.machine.witnessTables) fun _ _ => True := by
  rw [layOutClass_eq, Step.ends_bind, Step.ends_get, hw.module_eq, Step.ends_bind,
    Step.ends_liftM]
  refine ⟨fun table htable => ?_, fun _ _ => trivial⟩
  rw [Attempt.onMachine_eq_ok] at htable
  rw [Step.ends_bind]
  refine (ends_allocWords_mod table.words).imp (fun base w₁ h₁ => ?_) fun _ _ h => h
  obtain ⟨rfl, rfl, hroom⟩ := h₁
  have hev₁ : w.memory.Evolves (fun _ => False) _ := Memory.evolves_allocated hroom
  have hw₁ : (w.setMemory (w.memory.allocated (8 * (table.words % Size.limit)))).Linked :=
    hw.linked.evolves rfl hev₁
  rw [Step.ends_bind, Step.ends_liftM]
  refine ⟨fun descriptor hdescriptor => ?_, fun _ _ => trivial⟩
  rw [Attempt.onMachine_eq_ok, Hierarchy.typeDescriptor, Attempt.bind_eq_ok] at hdescriptor
  obtain ⟨decl, hdecl, hdescriptor⟩ := hdescriptor
  cases hdescriptor
  rw [Step.ends_bind]
  refine (ends_fillClass (u := w₀.module) hw₁ hw.module_eq
    (Memory.owns_allocated _ _)).imp (fun _ w₂ h₂ => ?_) fun _ _ h => h
  obtain ⟨hw₂, hext₂, hle, hfilled⟩ := h₂
  -- all words were written, so the count did fit
  have hwords : table.words % Size.limit = table.words := mod_limit_of_le hle
  have ho₂ : w₂.memory.Owns w.memory.next (8 * table.words) := by
    have := hext₂.evolves.owns (Memory.owns_allocated w.memory _)
    rwa [hwords] at this
  rw [Step.ends_bind]
  refine (ends_addressOf hw₂ _).imp (fun bounds w₃ h₃ => ?_) fun _ _ _ => trivial
  obtain ⟨hbounds, hw₃, hext₃⟩ := h₃
  -- everything so far is in fresh memory
  have hfresh : Extends (fun _ => False) w w₃ := by
    refine ((extends_setMemory hev₁).then hext₂ ?_).then hext₃ fun _ _ h => h
    intro n hn hle
    omega
  rw [Step.ends_bind, write, ends_withMemory]
  cases hm : w₃.memory.isMapped bounds with
  | false => exact Step.ends_of_error (Memory.write_error hm _) trivial
  | true =>
    refine Step.ends_of_ok (Memory.write_ok hm _) ?_
    refine ⟨(hw.extends hfresh hw₃).enrolled (by rw [hfresh.classes_eq, hnew]) htable
      (hext₃.evolves.owns ho₂) hdecl ((hparent decl hdecl).keeps hfresh.keeps)
      (hfilled.keeps hw₂.sound ho₂ hext₃.keeps fun _ _ _ h => h) hbounds, ?_, ?_⟩
    · exact congrArg (·.insert name w.memory.next) hfresh.classes_eq
    · exact hfresh.witnessTables_eq

/-- What laying out the class `name` has done: it is there, and what is new is it and
classes above it. -/
structure Instantiated (w₀ : World) (name : String) (w w' : World) : Prop where
  booting : Booting w₀ w'
  classes : ∀ name' a, w.machine.classes.get? name' = some a →
    w'.machine.classes.get? name' = some a
  above : ∀ name' a, w'.machine.classes.get? name' = some a →
    w.machine.classes.get? name' = some a ∨ ∃ k, w₀.module.hierarchy.Descends name' k name
  witnessTables : w'.machine.witnessTables = w.machine.witnessTables

/-- Laying out the superclass leaves the class as new as it was. -/
theorem Instantiated.get?_eq_none {parent : String} {decl : ClassDecl}
    (h : Instantiated w₀ parent w w') (hwf : w₀.module.hierarchy.WellFormed)
    (hdecl : w₀.module.hierarchy.classNamed name = .ok decl)
    (hsuper : decl.superclass = some parent) (hget : w.machine.classes.get? name = none) :
    w'.machine.classes.get? name = none := by
  cases hlaid : w'.machine.classes.get? name with
  | none => rfl
  | some base =>
    obtain ⟨ancestry, hancestry⟩ := hwf.ancestry hdecl
    rcases h.above name base hlaid with hold | ⟨k, hk⟩
    · rw [hget] at hold
      cases hold
    · exact (Hierarchy.Descends.not_self hancestry (.step hdecl hsuper hk)).elim

theorem ends_instantiateTo (hwf : w₀.module.hierarchy.WellFormed) (steps : Nat) :
    ∀ {name : String} {w : World}, Booting w₀ w →
      Step.Ends (instantiateTo steps name) w (fun base w' => Instantiated w₀ name w w' ∧
        w'.machine.classes.get? name = some base) fun _ _ => True := by
  induction steps with
  | zero => exact fun _ => trivial
  | succ steps ih =>
    intro name w hw
    rw [instantiateTo, Step.ends_bind, Step.ends_get]
    cases hget : w.machine.classes.get? name with
    | some base =>
      simp only [Step.ends_pure]
      exact ⟨⟨hw, fun _ _ h => h, fun _ _ h => Or.inl h, rfl⟩, hget⟩
    | none =>
      simp only [Step.ends_bind, Step.ends_liftM, hw.module_eq, Attempt.onMachine_eq_ok]
      refine ⟨fun decl hdecl => ?_, fun _ _ => trivial⟩
      have hself : w₀.module.hierarchy.Descends name 0 name := .refl hdecl
      -- the superclass first, and then the class itself
      have hlayOut : ∀ parent w₁, Booting w₀ w₁ → w₁.machine.classes.get? name = none →
          w₁.ParentWord decl parent → Step.Ends (layOutClass name parent) w₁ (fun base w' =>
            Instantiated w₀ name w₁ w' ∧ w'.machine.classes.get? name = some base)
            fun _ _ => True := by
        intro parent w₁ hw₁ hnew hparent
        refine (ends_layOutClass hw₁ hnew fun decl' hdecl' => ?_).imp (fun base w' h => ?_)
          fun _ _ h => h
        · rw [hdecl] at hdecl'
          cases hdecl'
          exact hparent
        · obtain ⟨hw', hclasses, htables⟩ := h
          refine ⟨⟨hw', fun name' a ha => ?_, fun name' a ha => ?_, htables⟩, ?_⟩
          · rw [hclasses, Table.get?_insert, if_neg]
            · exact ha
            · rintro rfl
              rw [hnew] at ha
              cases ha
          · rw [hclasses, Table.get?_insert] at ha
            split at ha
            · next heq => exact Or.inr ⟨0, heq ▸ hself⟩
            · exact Or.inl ha
          · rw [hclasses, Table.get?_insert, if_pos rfl]
      cases hs : decl.superclass with
      | none => exact hlayOut 0 w hw hget (by rw [ParentWord, hs])
      | some parent =>
        simp only [Step.ends_bind]
        refine (ih hw).imp (fun a w₁ h => ?_) fun _ _ h => h
        obtain ⟨h₁, ha⟩ := h
        have hnew := h₁.get?_eq_none hwf hdecl hs hget
        refine (hlayOut a w₁ h₁.booting hnew (by rw [ParentWord, hs]; exact ha)).imp
          (fun base w₂ h => ?_) fun _ _ h => h
        obtain ⟨h₂, hbase⟩ := h
        refine ⟨⟨h₂.booting, fun name' a ha => h₂.classes _ _ (h₁.classes _ _ ha),
          fun name' a ha => ?_, h₂.witnessTables.trans h₁.witnessTables⟩, hbase⟩
        rcases h₂.above name' a ha with h | h
        · rcases h₁.above name' a h with h | ⟨k, hk⟩
          · exact Or.inl h
          · exact Or.inr ⟨k + 1, .step hdecl hs hk⟩
        · exact Or.inr h

/-! ### Conformances -/

/-- The conformance that counts for a type and a protocol: the last one declared. -/
def conformanceIn (cs : List Conformance) (type protocol : String) : Option Conformance :=
  cs.reverse.find? fun c => c.type == type && c.protocol == protocol

theorem conformanceIn_append (cs : List Conformance) (c : Conformance) (type protocol : String) :
    conformanceIn (cs ++ [c]) type protocol =
      if c.type = type ∧ c.protocol = protocol then some c
      else conformanceIn cs type protocol := by
  rw [conformanceIn, List.reverse_append, List.reverse_singleton, List.singleton_append,
    List.find?_cons]
  split
  · next h => rw [if_pos (by simpa using h)]
  · next h => rw [if_neg (by simpa using h), conformanceIn]

theorem layOutConformance_eq (c : Conformance) :
    layOutConformance c = (do
      let base ← withMemory (Memory.allocWords (witnessHeaderWords + c.witnesses.length))
      writeEach addressOf base 0 ((c.type ++ ": " ++ c.protocol) :: c.witnesses)
      modify fun w =>
        { w with machine := { w.machine with
            witnessTables := w.machine.witnessTables.insert (c.type, c.protocol) base } }) := by
  simp only [layOutConformance, writeEach, writeWitnesses_eq, wordAddress_zero, bind_assoc]
  rfl

/-- The world with the witness table of one more conformance. -/
def attested (w : World) (c : Conformance) (base : Word) : World :=
  { w with machine := { w.machine with
      witnessTables := w.machine.witnessTables.insert (c.type, c.protocol) base } }

theorem get?_attested (w : World) (c : Conformance) (base : Word) (type protocol : String) :
    (w.attested c base).machine.witnessTables.get? (type, protocol) =
      if c.type = type ∧ c.protocol = protocol then some base
      else w.machine.witnessTables.get? (type, protocol) := by
  rw [attested]
  refine (Table.get?_insert _ _ _ _).trans ?_
  simp only [Prod.mk.injEq]

theorem Linked.attested (hw : w.Linked) (c : Conformance) (base : Word) :
    (w.attested c base).Linked := ⟨hw.sound, hw.keys, hw.owns, hw.apart⟩

theorem WitnessAt.attested {c : Conformance} (h : WitnessAt w c base) (c' : Conformance)
    (base' : Word) : WitnessAt (w.attested c' base') c base := ⟨h.owns, h.entries⟩

/-- Laying out a conformance adds its witness table in fresh memory. -/
theorem Linked.ends_layOutConformance (hw : w.Linked) (c : Conformance) :
    Step.Ends (layOutConformance c) w (fun _ w' => ∃ w₁ base, w₁.Linked ∧
      Extends (fun _ => False) w w₁ ∧ WitnessAt w₁ c base ∧ w' = w₁.attested c base)
      fun _ _ => True := by
  rw [layOutConformance_eq, Step.ends_bind]
  refine (ends_allocWords_mod _).imp (fun base w₁ h₁ => ?_) fun _ _ h => h
  obtain ⟨rfl, rfl, hroom⟩ := h₁
  have hev₁ : w.memory.Evolves (fun _ => False) _ := Memory.evolves_allocated hroom
  have hw₁ : (w.setMemory (w.memory.allocated
      (8 * ((witnessHeaderWords + c.witnesses.length) % Size.limit)))).Linked :=
    hw.evolves rfl hev₁
  rw [Step.ends_bind]
  refine (ends_writeEach (u := w.module) (P := fun symbol a w => w.link? symbol = some a)
    (fun symbol w hw _ => (ends_addressOf hw symbol).imp (fun _ _ h => ⟨h.2.1, h.2.2, h.1⟩)
      fun _ _ _ => trivial) (fun symbol a _ _ _ hext ha => hext.links symbol a ha) _
    hw₁ rfl (Memory.owns_allocated _ _) (Nat.zero_le _)).imp
    (fun _ w₂ h₂ => ?_) fun _ _ h => h
  obtain ⟨hw₂, hext₂, hle, hwords⟩ := h₂
  rw [List.length_cons] at hle
  -- all words were written, so their count did fit
  have hfits : (witnessHeaderWords + c.witnesses.length) % Size.limit
      = witnessHeaderWords + c.witnesses.length :=
    mod_limit_of_le (by simp only [witnessHeaderWords] at hle ⊢; omega)
  have hfresh : Extends (fun _ => False) w w₂ := by
    refine (extends_setMemory hev₁).then hext₂ ?_
    rintro n hn ⟨hle, -⟩
    omega
  have ho₂ : w₂.memory.Owns w.memory.next (8 * (witnessHeaderWords + c.witnesses.length)) := by
    have := hext₂.evolves.owns (Memory.owns_allocated w.memory _)
    rwa [hfits] at this
  rw [Step.ends_modify]
  refine ⟨w₂, w.memory.next, hw₂, hfresh, ⟨ho₂, fun k symbol hk => ?_⟩, rfl⟩
  obtain ⟨a, ha, hr⟩ := hwords (k + 1) symbol hk
  rw [Nat.zero_add, Nat.add_comm] at hr
  exact ⟨a, ha, hr⟩

/-- A world whose classes are laid out, and some of its conformances. -/
structure Conforming (w₀ : World) (done : List Conformance) (w : World) : Prop where
  booting : Booting w₀ w
  witnesses : ∀ type protocol c, conformanceIn done type protocol = some c →
    ∃ base, w.machine.witnessTables.get? (type, protocol) = some base ∧ WitnessAt w c base

theorem Booting.conforming (h : Booting w₀ w) : Conforming w₀ [] w where
  booting := h
  witnesses := by
    intro type protocol c hc
    cases hc

theorem Booting.attested (h : Booting w₀ w) (c : Conformance) (base : Word) :
    Booting w₀ (w.attested c base) where
  rest := by rw [World.attested, h.rest]
  linked := h.linked.attested c base
  classes name metadata hget := by
    obtain ⟨t, ht⟩ := h.classes name metadata hget
    exact ⟨t, ht.keeps h.linked.sound ⟨fun _ _ h => h, fun _ _ h => h, .refl _ (fun _ => False)⟩
      (fun _ _ _ h => h) fun _ _ h => h⟩

theorem ends_layOutConformance {done : List Conformance} {c : Conformance}
    (hw : Conforming w₀ done w) :
    Step.Ends (layOutConformance c) w (fun _ w' => Conforming w₀ (done ++ [c]) w' ∧
      w'.machine.classes = w.machine.classes) fun _ _ => True := by
  refine (hw.booting.linked.ends_layOutConformance c).imp (fun _ w' h => ?_) fun _ _ h => h
  obtain ⟨w₁, base, hw₁, hfresh, hat, rfl⟩ := h
  refine ⟨⟨(hw.booting.extends hfresh hw₁).attested c base, fun type protocol c' hc' => ?_⟩,
    hfresh.classes_eq⟩
  rw [conformanceIn_append] at hc'
  rw [get?_attested]
  by_cases hkey : c.type = type ∧ c.protocol = protocol
  · rw [if_pos hkey] at hc' ⊢
    cases hc'
    exact ⟨base, rfl, hat.attested c base⟩
  · rw [if_neg hkey] at hc' ⊢
    rw [hfresh.witnessTables_eq]
    obtain ⟨base', hbase', hat'⟩ := hw.witnesses type protocol c' hc'
    exact ⟨base', hbase', (hat'.keeps hw.booting.linked.sound hfresh.keeps).attested c base⟩

/-! ### Booting -/

theorem ends_layOutClasses (hwf : w₀.module.hierarchy.WellFormed) (cs : List ClassDecl) :
    ∀ {w : World}, Booting w₀ w →
      Step.Ends (cs.forM fun c => do let _ ← instantiate c.name) w (fun _ w' => Booting w₀ w' ∧
        (∀ name a, w.machine.classes.get? name = some a →
          w'.machine.classes.get? name = some a) ∧
        ∀ c ∈ cs, ∃ a, w'.machine.classes.get? c.name = some a) fun _ _ => True := by
  induction cs with
  | nil => exact fun hw => ⟨hw, fun _ _ h => h, by simp⟩
  | cons c rest ih =>
    intro w hw
    rw [List.forM, bind_assoc, Step.ends_bind, instantiate, Step.ends_bind, Step.ends_get]
    refine (ends_instantiateTo hwf _ hw).imp (fun a w₁ h₁ => ?_) fun _ _ h => h
    obtain ⟨h₁, ha⟩ := h₁
    rw [pure_bind]
    refine (ih h₁.booting).imp (fun _ w₂ h₂ => ?_) fun _ _ h => h
    obtain ⟨hw₂, hkept, hrest⟩ := h₂
    refine ⟨hw₂, fun name a ha => hkept _ _ (h₁.classes _ _ ha), fun c' hc' => ?_⟩
    rcases List.mem_cons.mp hc' with rfl | hc'
    · exact ⟨a, hkept _ _ ha⟩
    · exact hrest c' hc'

theorem ends_layOutConformances (cs : List Conformance) :
    ∀ {done : List Conformance} {w : World}, Conforming w₀ done w →
      Step.Ends (cs.forM layOutConformance) w (fun _ w' => Conforming w₀ (done ++ cs) w' ∧
        w'.machine.classes = w.machine.classes) fun _ _ => True := by
  induction cs with
  | nil =>
    intro done w hw
    rw [List.append_nil]
    exact ⟨hw, rfl⟩
  | cons c rest ih =>
    intro done w hw
    rw [List.forM, Step.ends_bind]
    refine (ends_layOutConformance hw).imp (fun _ w₁ h₁ => ?_) fun _ _ h => h
    obtain ⟨hw₁, hclasses₁⟩ := h₁
    refine (ih hw₁).imp (fun _ w₂ h₂ => ?_) fun _ _ h => h
    rw [List.append_assoc] at h₂
    exact ⟨h₂.1, h₂.2.trans hclasses₁⟩

/-- A machine without symbols and tables, and with empty memory. -/
def IsBlank (w : World) : Prop :=
  w = { w with machine := { w.machine with
    memory := {}, symbols := {}, classes := {}, witnessTables := {} } }

theorem booting_of_isBlank (h : w₀.IsBlank) : Booting w₀ w₀ := by
  refine ⟨rfl, ⟨?_, ?_, ?_, ?_⟩, ?_⟩ <;> rw [h]
  · exact Memory.sound_empty
  · exact List.nodup_nil
  · exact fun _ _ h => nomatch h
  · exact fun _ _ _ h => nomatch h
  · exact fun _ _ h => nomatch h

theorem ends_layOut (hwf : w₀.module.hierarchy.WellFormed) (hblank : w₀.IsBlank) :
    Step.Ends layOut w₀ (fun _ w => Conforming w₀ w₀.module.hierarchy.conformances w ∧
      ∀ c ∈ w₀.module.hierarchy.classes, ∃ a, w.machine.classes.get? c.name = some a)
      fun _ _ => True := by
  rw [layOut, Step.ends_bind, Step.ends_get, Step.ends_bind]
  refine (ends_layOutClasses hwf _ (booting_of_isBlank hblank)).imp (fun _ w₁ h₁ => ?_)
    fun _ _ h => h
  obtain ⟨hw₁, -, hdeclared⟩ := h₁
  refine (ends_layOutConformances _ hw₁.conforming).imp (fun _ w₂ h₂ => ?_) fun _ _ h => h
  exact ⟨h₂.1, fun c hc => by rw [h₂.2]; exact hdeclared c hc⟩

/-- The tables of all classes and conformances are in memory. -/
structure Tabled (u : Module) (w : World) : Prop where
  linked : w.Linked
  classes : ∀ name metadata, w.machine.classes.get? name = some metadata →
    ∃ t, ClassAt u w name t metadata
  declared : ∀ c ∈ u.hierarchy.classes, ∃ metadata,
    w.machine.classes.get? c.name = some metadata
  witnesses : ∀ type protocol c,
    conformanceIn u.hierarchy.conformances type protocol = some c →
    ∃ base, w.machine.witnessTables.get? (type, protocol) = some base ∧ WitnessAt w c base

/-- Tables stay as long as nobody writes to them. -/
theorem Tabled.keeps (h : Tabled u w) (hw' : w'.Linked)
    (hlinks : ∀ symbol a, w.link? symbol = some a → w'.link? symbol = some a)
    (hclasses : w'.machine.classes = w.machine.classes)
    (hwitness : w'.machine.witnessTables = w.machine.witnessTables)
    (hev : w.memory.Evolves (fun _ => False) w'.memory) : Tabled u w' := by
  have hk : Keeps (fun _ => False) w w' := ⟨hlinks, fun _ _ h => by rw [hclasses]; exact h, hev⟩
  refine ⟨hw', fun name metadata hget => ?_, fun c hc => ?_, fun type protocol c hc => ?_⟩
  · rw [hclasses] at hget
    obtain ⟨t, ht⟩ := h.classes name metadata hget
    exact ⟨t, ht.keeps h.linked.sound hk (fun _ _ _ h => h) fun _ _ h => h⟩
  · rw [hclasses]
    exact h.declared c hc
  · rw [hwitness]
    obtain ⟨base, hbase, hat⟩ := h.witnesses type protocol c hc
    exact ⟨base, hbase, hat.keeps h.linked.sound hk⟩

/-- After booting all tables are there. -/
theorem tabled_of_boot {machine : Machine} (hwf : u.hierarchy.WellFormed)
    (h : u.boot = .ok machine) :
    Tabled u ⟨u, machine⟩ ∧ machine.implementations = {} ∧
      ∃ implementations, u.hierarchy.implementations = .ok implementations ∧
        machine.signatures = implementations.foldl (fun t p => t.insert p.1 p.2) {} := by
  rw [Module.boot, Attempt.bind_eq_ok] at h
  obtain ⟨implementations, himpl, h⟩ := h
  rw [Attempt.onMachine_eq_ok] at himpl
  simp only at h
  split at h
  · next w heq =>
    cases h
    obtain ⟨hconf, hdeclared⟩ := Step.Ends.ok (ends_layOut hwf (by rfl)) heq
    have hw : (⟨u, w.machine⟩ : World) = w := by
      have hmodule : w.module = u := hconf.booting.module_eq
      rw [← hmodule]
    rw [hw]
    refine ⟨⟨hconf.booting.linked, hconf.booting.classes, hdeclared, hconf.witnesses⟩, ?_,
      implementations, himpl, ?_⟩
    · rw [hconf.booting.rest]
    · rw [hconf.booting.rest]
  · cases h

end World

end Dispatch
