import StackFlow.Proofs.Faults

/-!
# The order in which a table is written down

The rows of a table can be written down in any order, as long as all of them can
be read (`source_of_perm`).  Rows with the same byte and the same name keep their
order when they are sorted, but then the table has a duplicate, and what is told
of it is told of the bytes and names alone.
-/

namespace StackFlow.Table

variable {keyed : List Keyed} {ds : List Definition} {f : Fault} {s s' : Spec}

theorem Spec.Defines.perm (h : s.Defines ds) (version : s.version = s'.version)
    (perm : s.rows.Perm s'.rows) : s'.Defines ds := by
  obtain ⟨ds', defines, perm'⟩ := h.rows
  obtain ⟨ds'', defines, perm''⟩ := List.perm_comp_forall₂ perm.symm defines
  exact ⟨version ▸ h.version, ⟨ds'', defines, perm''.trans perm'⟩, h.ascending, h.names⟩

theorem Spec.Read.perm (h : s.Read keyed) (perm : s.rows.Perm s'.rows) :
    ∃ keyed', keyed.Perm keyed' ∧ s'.Read keyed' := by
  obtain ⟨keyed', read, perm'⟩ :=
    List.perm_comp_forall₂ perm.symm (mapM_eq_ok_iff.mp (Spec.read_iff.mpr h))
  exact ⟨keyed', perm'.symm, Spec.read_iff.mp (mapM_eq_ok_iff.mpr read)⟩

/-- Behind the bytes that are read in the order of the rows, no order is seen any more. -/
theorem Spec.FirstFault.perm (h : s.FirstFault f) (same : s.version = s'.version)
    (perm : s.rows.Perm s'.rows) (readable : ∀ r ∈ s.rows, ∃ byte, Spells byte r.byte.toList) :
    s'.FirstFault f := by
  cases h with
  | version other =>
    rw [same] at other ⊢
    exact .version other
  | @byte before after r cause _ rows _ unread =>
    obtain ⟨byte, spells⟩ := readable r (rows ▸ List.mem_append_right _ List.mem_cons_self)
    exact absurd spells (unread byte)
  | duplicate version read twice =>
    obtain ⟨keyed', perm', read'⟩ := read.perm perm
    exact .duplicate (same ▸ version) read' (twice.perm perm')
  | shape version read bytes names mem fault least =>
    obtain ⟨keyed', perm', read'⟩ := read.perm perm
    exact .shape (same ▸ version) read' ((perm'.map _).nodup_iff.mp bytes)
      ((perm.map _).nodup_iff.mp names) (perm'.mem_iff.mp mem) fault
      fun q hq ↦ least q (perm'.mem_iff.mpr hq)

/-- Tables with the same rows, all of which can be read, have the same source text or the same
first fault. -/
theorem source_of_perm (version : s.version = s'.version) (perm : s.rows.Perm s'.rows)
    (readable : ∀ r ∈ s.rows, ∃ byte, Spells byte r.byte.toList) : s.source = s'.source := by
  unfold Spec.source
  cases h : s.definitions with
  | ok ds =>
    have defines := (defines_of_definitions h).perm version perm
    rw [definitions_of_defines defines]
  | error f =>
    have fault := (firstFault_of_definitions h).perm version perm readable
    rw [definitions_of_firstFault fault]

/-- A table with one byte in three rows, one name in three, and flows and stack effects at
fault. -/
def tangled : Spec where
  version := 1
  rows := [
    { name := "MUL", mnemonic := "mul", byte := "0x02", inputs := 9000, outputs := 1,
      flow := "next" },
    { name := "ADD", mnemonic := "add", byte := "0x01", inputs := 2, outputs := 1,
      flow := "next" },
    { name := "STOP", mnemonic := "stop", byte := "+1", inputs := 0, outputs := 0,
      flow := "terminator" },
    { name := "ADD", mnemonic := "plus", byte := " 01 ", inputs := 2, outputs := 1,
      flow := "dynamic" },
    { name := "ADD", mnemonic := "more", byte := "0X03", inputs := 2, outputs := 1,
      flow := "jump" }]

/-- Three rows have the byte 0x01, of which two have the smallest name. -/
theorem firstFault_tangled : tangled.FirstFault (.duplicateByte 0x01 "ADD" "ADD") := by
  let keyed : List Keyed := [0x02, 0x01, 0x01, 0x01, 0x03].zip tangled.rows
  have bytes : ∀ k ∈ keyed, k.2.byte? = some k.1 := by decide
  have names : (namesAt keyed 0x01).Perm ["ADD", "ADD", "STOP"] := by decide
  have order : ["ADD", "ADD", "STOP"].Pairwise (· ≤ ·) := by decide
  have least : ∀ c < 0x01, (keyed.map (·.1)).count c ≤ 1 := by
    intro c lt
    obtain rfl : c = 0 := UInt8.toNat_inj.mp (Nat.lt_one_iff.mp (UInt8.lt_iff_toNat_lt.mp lt))
    decide
  exact .duplicate rfl ⟨rfl, fun k hk ↦ byte?_eq_some_iff.mp (bytes k hk)⟩
    (.byte names order least)

theorem source_of_perm_tangled :
    let turned : Spec := { tangled with rows := tangled.rows.reverse }
    tangled.rows.Perm turned.rows ∧ tangled.source = turned.source ∧
      tangled.source = .error (.duplicateByte 0x01 "ADD" "ADD") := by
  have perm : tangled.rows.Perm tangled.rows.reverse := (List.reverse_perm _).symm
  have readable : ∀ r ∈ tangled.rows, r.byte?.isSome = true := by decide
  refine ⟨perm, source_of_perm rfl perm fun r hr ↦ ?_, source_eq_error_iff.mpr firstFault_tangled⟩
  obtain ⟨byte, h⟩ := Option.isSome_iff_exists.mp (readable r hr)
  exact ⟨byte, byte?_eq_some_iff.mp h⟩

end StackFlow.Table
