import Dispatch.Proofs.Generation
import Dispatch.Proofs.Signing
import Dispatch.Proofs.Tables

/-!
# Finding the implementation of a method

The loads of a dispatch thunk lead from a receiver to the implementation that the
receiver's class uses for the method, and from a witness table to the witness; with
signed tables they check what they load.

## Main statements

* `World.Selects` — the implementation that a call is for.
* `World.Selects.load` — the loads of a thunk give its address.
-/

namespace Dispatch

namespace World

variable {u : Module} {w w' : World} {m : Method} {receiver : Word}
  {witness : Option (Word × Word)} {symbol : String} {name : String} {t : VTable}
  {metadata a : Word}

/-- The implementation that a call of `m` with this receiver and this witness table is
for.  The receiver is an object of a class that has the method, or the metadata of such a
class; the witness table is that of a type that conforms to the method's protocol. -/
inductive Selects (u : Module) (w : World) (m : Method) (receiver : Word)
    (witness : Option (Word × Word)) (symbol : String) : Prop where
  | ofClass {owner dynamic : String} {n : Nat} {metadata : Word} {isMetadata : Bool}
    (howner : m.owner = .ofClass owner) (hdescends : u.hierarchy.Descends owner n dynamic)
    (hclass : w.machine.classes.get? dynamic = some metadata)
    (hkind : Target.receiverIsMetadata u.pool m = .ok isMetadata)
    (hreceiver : if isMetadata then receiver = metadata
      else w.memory.read receiver = .ok metadata)
    (hselected : u.hierarchy.selected dynamic m = .ok symbol)
  | ofProtocol {protocol type : String} {decl : ProtocolDecl} {c : Conformance}
    {metadata table : Word} {k : Nat} (howner : m.owner = .ofProtocol protocol)
    (hprotocol : u.hierarchy.protocolNamed protocol = .ok decl)
    (hconformance : conformanceIn u.hierarchy.conformances type protocol = some c)
    (htable : w.machine.witnessTables.get? (type, protocol) = some table)
    (hwitness : witness = some (metadata, table))
    (hindex : decl.requirements.findIdx? (· == m) = some k)
    (hsymbol : c.witnesses[k]? = some symbol)

/-- The call stays one for the same implementation as long as nobody writes to what was
there. -/
theorem Selects.keeps (h : Selects u w m receiver witness symbol) (hw : w.memory.Sound)
    (hclasses : w'.machine.classes = w.machine.classes)
    (hwitness : w'.machine.witnessTables = w.machine.witnessTables)
    (hev : w.memory.Evolves (fun _ => False) w'.memory) :
    Selects u w' m receiver witness symbol := by
  cases h with
  | ofClass howner hdescends hclass hkind hreceiver hselected =>
    refine .ofClass howner hdescends (by rw [hclasses]; exact hclass) hkind ?_ hselected
    split at hreceiver
    · next h =>
      rw [if_pos h]
      exact hreceiver
    · next h =>
      rw [if_neg h]
      exact hev.read_ok hw hreceiver id
  | ofProtocol howner hprotocol hconformance htable hwitnesses hindex hsymbol =>
    exact .ofProtocol howner hprotocol hconformance (by rw [hwitness]; exact htable) hwitnesses
      hindex hsymbol

theorem Selects.after (h : Selects u w m receiver witness symbol) (hw : w.memory.Sound)
    (hafter : After w w') : Selects u w' m receiver witness symbol :=
  h.keeps hw hafter.steady.classes hafter.steady.witnessTables hafter.evolves

theorem Tabled.after (h : Tabled u w) (hafter : After w w') : Tabled u w' :=
  h.keeps (h.linked.evolves hafter.steady.symbols hafter.evolves)
    (fun _ _ hs => by rw [link?, hafter.steady.symbols]; exact hs) hafter.steady.classes
    hafter.steady.witnessTables hafter.evolves

theorem addressOf_ok (h : w.link? symbol = some a) : addressOf symbol w = .ok a w := by
  rw [addressOf, Step.bind_of_ok Step.run_get, show w.machine.symbols.get? symbol = some a from h]
  rfl

/-- The address of word `k` of a region. -/
theorem addWord_owned {base : Word} {words k : Nat} (hw : w.memory.Sound)
    (ho : w.memory.Owns base (8 * words)) (hk : k < words) :
    addWord base (UInt64.ofNat (k * wordBytes)) = .ok (base.plus (8 * k)) := by
  have hend := ho.end_le hw
  have hlt := w.memory.next.toNat_lt
  rw [wordBytes, Nat.mul_comm, addWord_ofNat (by omega)]

/-! ### Class tables -/

theorem two_le_ownStart (h : u.hierarchy.vtable name = .ok t) : tableHeaderWords ≤ t.ownStart := by
  obtain ⟨decl, above, -, hext, -⟩ := Hierarchy.vtable_cases h
  rw [(Hierarchy.extendTable_eq_ok hext).2]
  exact Nat.le_add_right _ _

/-- The address of the entry with an index, in the metadata of a class that has it. -/
theorem tableSlot_ok (hw : Tabled u w) {owner : String} {t' : VTable} {k : Nat} {resilient : Bool}
    {base : Word} (hat : ClassAt u w name t' base) (htable : u.hierarchy.vtable owner = .ok t)
    (hk : k < t'.entries.length) (hstart : t.ownStart ≤ k + tableHeaderWords)
    (howner : ∃ metadata, ClassAt u w owner t metadata) :
    tableSlot base (if resilient = true
      then .resilient (u.hierarchy.boundsSymbol owner) (k + tableHeaderWords - t.ownStart)
      else .fixed (k + tableHeaderWords)) w
      = .ok (base.plus (8 * (tableHeaderWords + k))) w := by
  have hwords : t'.words = tableHeaderWords + t'.entries.length := rfl
  have hsound := hw.linked.sound
  cases resilient with
  | false =>
    simp only [Bool.false_eq_true, if_false, tableSlot]
    rw [addWord_owned hsound hat.owns (by omega), Nat.add_comm]
    rfl
  | true =>
    obtain ⟨metadata, hat'⟩ := howner
    obtain ⟨bounds, hbounds, hread⟩ := hat'.bounds
    have hend := hat.owns.end_le hsound
    have hnext := w.memory.next.toNat_lt
    have htwo := two_le_ownStart htable
    have hnat : (UInt64.ofNat (t.ownStart * wordBytes)).toNat = t.ownStart * wordBytes := by
      refine UInt64.toNat_ofNat_of_lt' ?_
      simp only [UInt64.size, wordBytes]
      omega
    have hnot : ¬ (UInt64.ofNat (t.ownStart * wordBytes)).toNat
        < tableHeaderWords * wordBytes := by
      rw [hnat]
      exact Nat.not_lt.mpr (Nat.mul_le_mul_right _ htwo)
    simp only [if_true, tableSlot]
    rw [Step.bind_of_ok (addressOf_ok hbounds), Step.bind_of_ok (read_ok hread), if_neg hnot,
      addWord_owned hsound hat.owns (by omega), Step.bind_of_ok Step.run_liftM_ok]
    have hroom : (base.plus (8 * t.ownStart)).toNat = base.toNat + 8 * t.ownStart :=
      Word.toNat_plus (by omega)
    have hsum : 8 * t.ownStart + (k + tableHeaderWords - t.ownStart) * wordBytes
        = 8 * (tableHeaderWords + k) := by
      simp only [wordBytes]
      omega
    rw [addWord_ofNat (by omega), Word.plus_plus, hsum]
    rfl

theorem Tabled.classAt (hw : Tabled u w) {decl : ClassDecl}
    (hdecl : u.hierarchy.classNamed name = .ok decl) :
    ∃ t metadata, w.machine.classes.get? name = some metadata ∧ ClassAt u w name t metadata := by
  obtain ⟨hmem, rfl⟩ := Hierarchy.mem_of_classNamed hdecl
  obtain ⟨metadata, hget⟩ := hw.declared decl hmem
  obtain ⟨t, hat⟩ := hw.classes _ _ hget
  exact ⟨t, metadata, hget, hat⟩

/-- Where the table of a class holds the entry for a method. -/
theorem Tabled.slot (hw : Tabled u w) (hwf : u.hierarchy.WellFormed) {base : Method}
    (hbase : u.hierarchy.introducing m = .ok base) {owner : String} {n : Nat}
    (howner : base.owner = .ofClass owner) (hd : u.hierarchy.Descends owner n name)
    (hat : ClassAt u w name t metadata) :
    ∃ slot above k e, u.hierarchy.slot m = .ok slot ∧ u.hierarchy.vtable owner = .ok above ∧
      above.ownStart ≤ k + tableHeaderWords ∧ t.entries[k]? = some e ∧
      t.entries.findIdx? (·.method == base) = some k ∧
      t.entries.find? (·.method == base) = some e ∧
      tableSlot metadata slot w = .ok (metadata.plus (8 * (tableHeaderWords + k))) w := by
  obtain ⟨owner', above, k, resilient, howner', htable, hk, hstart, hslot⟩ := hwf.slot hbase
  rw [howner] at howner'
  cases howner'
  obtain ⟨e, hek, -, hindex, hfind⟩ := hd.entry htable hk hat.table
  -- the class that introduced the entry has its bounds in memory
  obtain ⟨-, decl, hdecl⟩ := hd.classNamed
  obtain ⟨t₀, metadata₀, -, hat₀⟩ := hw.classAt hdecl
  have ht₀ := hat₀.table
  rw [htable] at ht₀
  cases ht₀
  exact ⟨_, above, k, e, hslot, htable, hstart, hek, hindex, hfind,
    tableSlot_ok hw hat htable (List.getElem?_eq_some_iff.mp hek).1 hstart ⟨_, hat₀⟩⟩

/-- Where the table of a class holds the entry for a method, and what it holds. -/
theorem Tabled.entry (hw : Tabled u w) (hwf : u.hierarchy.WellFormed)
    (hclass : w.machine.classes.get? name = some metadata)
    (hselected : u.hierarchy.selected name m = .ok symbol) :
    ∃ base slot address a word, u.hierarchy.introducing m = .ok base ∧
      u.hierarchy.slot m = .ok slot ∧ tableSlot metadata slot w = .ok address w ∧
      w.link? symbol = some a ∧ u.entryWord base a = .ok word ∧
      w.memory.read address = .ok word := by
  obtain ⟨t, hat⟩ := hw.classes name metadata hclass
  rw [Hierarchy.selected, Attempt.bind_eq_ok] at hselected
  obtain ⟨base, hbase, hselected⟩ := hselected
  rw [hat.table, Attempt.ok_bind] at hselected
  split at hselected
  · next e he =>
    cases hselected
    have hmethod : e.method = base := by simpa using List.find?_some he
    obtain ⟨owner, n, howner, hd⟩ := hwf.owner_of_mem hat.table
      (List.mem_map.mpr ⟨e, List.mem_of_find?_eq_some he, hmethod⟩)
    obtain ⟨slot, _, k, e', hslot, -, -, hek, -, hfind, haddress⟩ :=
      hw.slot hwf hbase howner hd hat
    rw [he] at hfind
    cases hfind
    obtain ⟨_, _, -, -, hfilled⟩ := hat.filled
    obtain ⟨word, ⟨a, ha, hword⟩, hread⟩ := hfilled.entries k e hek
    exact ⟨base, slot, _, a, word, hbase, hslot, haddress, ha, hmethod ▸ hword, hread⟩
  · cases hselected

/-- An entry checked as the thunk of a method does is the address of the implementation. -/
theorem checked_entryWord {p : Pool} {base : Method} {word : Word} {signing : Option Signing}
    (hp : u.pool.Extends p) (hbase : u.hierarchy.introducing m = .ok base)
    (hsigning : (u.options.signingKey.mapM fun key =>
      (u.hierarchy.signing p key m).orTrap .discriminator) = .ok signing)
    (hword : u.entryWord base a = .ok word) (ha : a.toNat < 2 ^ 48) :
    Target.checked signing word = .ok a := by
  unfold Module.entryWord at hword
  cases hkey : u.options.signingKey with
  | none =>
    rw [hkey, Option.mapM_none] at hsigning
    rw [hkey] at hword
    cases hsigning
    cases hword
    rfl
  | some key =>
    rw [hkey, Option.mapM_some, Attempt.map_eq_ok] at hsigning
    obtain ⟨s, hs, rfl⟩ := hsigning
    rw [Attempt.orTrap_eq_ok, Hierarchy.signing_introducing hbase] at hs
    rw [hkey] at hword
    obtain ⟨s', hs', hword⟩ := Attempt.bind_eq_ok.mp hword
    rw [Target.signing_extends hp hs'] at hs
    cases hs
    cases hword
    rw [Target.checked, Signing.check_sign, Word.strip_of_lt ha]

/-! ### The loads of a thunk -/

/-- The loads of a thunk give the address of the implementation that the call is for. -/
theorem Selects.load (h : Selects u w m receiver witness symbol) (hw : Tabled u w)
    (hwf : u.hierarchy.WellFormed) {p : Pool} {target : Target} (hp : u.pool.Extends p)
    (hplace : Target.ofMethod u.hierarchy p u.options.signingKey m = .ok target)
    (hbound : ∀ a, w.link? symbol = some a → a.toNat < 2 ^ 48) :
    ∃ a, w.link? symbol = some a ∧ target.load p m receiver witness w = .ok a w := by
  cases h with
  | @ofClass owner dynamic n metadata isMetadata howner hdescends hclass hkind hreceiver hselected =>
    obtain ⟨base, slot, address, a, word, hbase, hslot, haddress, ha, hword, hread⟩ :=
      hw.entry hwf hclass hselected
    have hkind := Target.receiverIsMetadata_extends hp hkind
    rw [Target.ofMethod, if_neg (by rw [Hierarchy.isWitness_of_introducing hbase]; simp)] at hplace
    obtain ⟨slot', hslot', hplace⟩ := Attempt.bind_eq_ok.mp hplace
    rw [Attempt.orTrap_eq_ok, hslot] at hslot'
    cases hslot'
    obtain ⟨signing, hsigning, hplace⟩ := Attempt.bind_eq_ok.mp hplace
    cases hplace
    have hmetadata : Target.metadata p m receiver w = .ok metadata w := by
      rw [Target.metadata, hkind]
      cases isMetadata with
      | true =>
        simp only [if_true] at hreceiver
        rw [hreceiver]
        rfl
      | false =>
        simp only [Bool.false_eq_true, if_false] at hreceiver
        exact read_ok hreceiver
    refine ⟨a, ha, ?_⟩
    rw [Target.load, Step.bind_of_ok hmetadata, Step.bind_of_ok haddress,
      Step.bind_of_ok (read_ok hread), checked_entryWord hp hbase hsigning hword (hbound _ ha)]
    rfl
  | @ofProtocol protocol type decl c metadata table k howner hprotocol hconformance htable hwitness
      hindex hsymbol =>
    obtain ⟨table', htable', hat⟩ := hw.witnesses type protocol c hconformance
    rw [htable] at htable'
    cases htable'
    obtain ⟨a, ha, hread⟩ := hat.entries k symbol hsymbol
    refine ⟨a, ha, ?_⟩
    have hindex' : u.hierarchy.witnessIndex m = .ok (k + witnessHeaderWords) := by
      rw [Hierarchy.witnessIndex, howner]
      simp only [hprotocol, Attempt.ok_bind, hindex]
      rfl
    rw [Target.ofMethod, if_pos (by rw [Method.isWitness, howner]; rfl), hindex'] at hplace
    cases hplace
    have hlt := (List.getElem?_eq_some_iff.mp hsymbol).1
    subst hwitness
    rw [Target.load]
    simp only
    rw [addWord_owned hw.linked.sound hat.owns (by omega), Step.bind_of_ok Step.run_liftM_ok,
      Nat.add_comm]
    exact read_ok hread

end World

end Dispatch
