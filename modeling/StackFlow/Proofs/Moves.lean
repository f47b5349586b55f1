import StackFlow.Proofs.Level
import StackFlow.Proofs.Steps

/-!
# Moves of a frame are steps of the machine

A frame stands at a spot, and the machine can go from there exactly where the
move of the frame leads: along `Move.flats` on the same level, along a call
into the subroutine, and out of it.  `Leads` is the relation of spots that
control passes along when a call is taken for granted to come back.
-/

namespace StackFlow

namespace Machine

variable {code : Code}

theorem Fetch.unique {pc : Nat} {i j : Instr} {op op' : Opcode} (h : Fetch code pc i op)
    (h' : Fetch code pc j op') : i = j ∧ op = op' := by
  obtain rfl : i = j := Option.some.inj (h.decode.symm.trans h'.decode)
  exact ⟨rfl, Option.some.inj (h.opcode.symm.trans h'.opcode)⟩

/-- Control leads from one spot to another, over a call also to the offset behind it. -/
inductive Leads (code : Code) : Spot → Spot → Prop where
  | flat {a b : Spot} (h : Flat code a b) : Leads code a b
  | enter {a : Spot} {t r : Nat} (h : Calls code a.pc t r) : Leads code a (.entry t)
  | resume {a : Spot} {t r : Nat} (h : Calls code a.pc t r) : Leads code a ⟨r, a.height⟩

end Machine

namespace Check

open Machine

/-- The frames of a move that stay on the level. -/
def Move.flats : Move → List Frame
  | .next f | .jump f => [f]
  | .branch taken fallthrough => [taken, fallthrough]
  | .halt | .call .. | .ret _ => []

namespace Frame

variable {code : Code} {limits : Limits} {starts : Starts} {f : Frame} {i : Instr} {op : Opcode}
  {m : Move}

/-- Where a frame stands. -/
def spot (f : Frame) : Spot := ⟨f.pc, f.height⟩

/-- On the level, a move is a step of the machine, and stays in the subroutine. -/
theorem Takes.flat (h : f.Takes limits starts i op m) (fetch : Fetch code f.pc i op)
    (items : op.inputs ≤ f.height) {g : Frame} (hg : g ∈ m.flats) :
    Flat code f.spot g.spot ∧ g.call? = f.call? ∧ g.base = f.base ∧ g.depth = f.depth := by
  cases h with
  | halt => cases hg
  | next flow =>
    cases List.mem_singleton.mp hg
    exact ⟨.next fetch flow items, rfl, rfl, rfl⟩
  | jump flow target =>
    cases List.mem_singleton.mp hg
    exact ⟨.jump fetch flow target, rfl, rfl, rfl⟩
  | branch flow target =>
    rcases List.mem_cons.mp hg with rfl | hg
    · exact ⟨.branchTaken fetch flow items target, rfl, rfl, rfl⟩
    · cases List.mem_singleton.mp hg
      exact ⟨.branchFallthrough fetch flow items, rfl, rfl, rfl⟩
  | call => cases hg
  | ret => cases hg

theorem Takes.calls {body resume : Frame} (h : f.Takes limits starts i op (.call body resume))
    (fetch : Fetch code f.pc i op) :
    Calls code f.pc body.pc resume.pc ∧ body.height = 0 ∧ body.entry? = some body.pc ∧
      resume = { f with pc := resume.pc } := by
  cases h with
  | call flow target => exact ⟨⟨i, op, fetch, flow, target, rfl⟩, rfl, rfl, rfl⟩

theorem Takes.leads (h : f.Takes limits starts i op m) (fetch : Fetch code f.pc i op)
    (items : op.inputs ≤ f.height) {g : Frame} (hg : g ∈ m.frames) :
    Leads code f.spot g.spot := by
  cases m with
  | halt => cases hg
  | next | jump | branch => exact .flat (h.flat fetch items hg).1
  | call body resume =>
    obtain ⟨site, hb, _, hr⟩ := h.calls fetch
    rcases List.mem_cons.mp hg with rfl | hg
    · have he : g.spot = .entry g.pc := by rw [spot, hb]; rfl
      rw [he]
      exact .enter site
    · cases List.mem_singleton.mp hg
      rw [hr]
      exact .resume site
  | ret => cases hg

/-! ## From the flow to the move -/

theorem Takes.eq_next (h : f.Takes limits starts i op m) (flow : op.flow = .next) :
    m = .next { f with pc := i.next, height := f.after op } := by
  cases h <;> simp_all

theorem Takes.exists_jump (h : f.Takes limits starts i op m) (flow : op.flow = .jump) :
    ∃ t : Nat, i.target? = some (t : Int) ∧ starts.contains t = true ∧
      m = .jump { f with pc := t } := by
  cases h with
  | jump _ target start => exact ⟨_, target, start, rfl⟩
  | _ => simp_all

theorem Takes.exists_branch (h : f.Takes limits starts i op m) (flow : op.flow = .jumpIf) :
    ∃ t : Nat, i.target? = some (t : Int) ∧ starts.contains t = true ∧
      m = .branch { f with pc := t, height := f.after op }
        { f with pc := i.next, height := f.after op } := by
  cases h with
  | branch _ target start => exact ⟨_, target, start, rfl⟩
  | _ => simp_all

theorem Takes.exists_call (h : f.Takes limits starts i op m) (flow : op.flow = .call) :
    ∃ t : Nat, i.target? = some (t : Int) ∧ starts.contains t = true ∧
      m = .call
        { pc := t, height := 0, base := f.base + f.height, depth := f.depth + 1,
          call? := some { entry := t, resume := i.next } }
        { f with pc := i.next } := by
  cases h with
  | call _ target start => exact ⟨_, target, start, rfl⟩
  | _ => simp_all

theorem Takes.exists_ret (h : f.Takes limits starts i op m) (flow : op.flow = .ret) :
    ∃ c, f.call? = some c ∧ m = .ret c := by
  cases h with
  | ret _ call => exact ⟨_, call, rfl⟩
  | _ => simp_all

theorem target_unique {t t' : Nat} (h : i.target? = some (t : Int))
    (h' : i.target? = some (t' : Int)) : t = t' :=
  Int.ofNat.inj (Option.some.inj (h.symm.trans h'))

/-- A step of the machine on the level is one that the move makes. -/
theorem Takes.exists_flat (h : f.Takes limits starts i op m) (fetch : Fetch code f.pc i op)
    {b : Spot} (hb : Flat code f.spot b) : ∃ g ∈ m.flats, g.spot = b ∧ g.entry? = f.entry? := by
  unfold spot at hb
  cases hb with
  | next fetch' flow =>
    obtain ⟨rfl, rfl⟩ := fetch.unique fetch'
    obtain rfl := h.eq_next flow
    exact ⟨_, List.mem_cons_self, rfl, rfl⟩
  | jump fetch' flow target =>
    obtain ⟨rfl, rfl⟩ := fetch.unique fetch'
    obtain ⟨t, target', _, rfl⟩ := h.exists_jump flow
    obtain rfl := target_unique target target'
    exact ⟨_, List.mem_cons_self, rfl, rfl⟩
  | branchTaken fetch' flow _ target =>
    obtain ⟨rfl, rfl⟩ := fetch.unique fetch'
    obtain ⟨t, target', _, rfl⟩ := h.exists_branch flow
    obtain rfl := target_unique target target'
    exact ⟨_, List.mem_cons_self, rfl, rfl⟩
  | branchFallthrough fetch' flow =>
    obtain ⟨rfl, rfl⟩ := fetch.unique fetch'
    obtain ⟨t, _, _, rfl⟩ := h.exists_branch flow
    exact ⟨_, List.mem_cons_of_mem _ List.mem_cons_self, rfl, rfl⟩

/-- A call of the machine is the one that the move makes. -/
theorem Takes.of_calls (h : f.Takes limits starts i op m) (fetch : Fetch code f.pc i op)
    {t r : Nat} (site : Calls code f.pc t r) :
    ∃ body resume, m = .call body resume ∧ body.spot = .entry t ∧ body.entry? = some t ∧
      resume.spot = ⟨r, f.height⟩ ∧ resume.entry? = f.entry? := by
  obtain ⟨j, op', fetch', flow, target, rfl⟩ := site
  obtain ⟨rfl, rfl⟩ := fetch.unique fetch'
  obtain ⟨t', target', _, rfl⟩ := h.exists_call flow
  obtain rfl := target_unique target target'
  exact ⟨_, _, rfl, rfl, rfl, rfl, rfl⟩

/-- Where the machine leaves the subroutine, so does the move. -/
theorem Takes.of_leaves (h : f.Takes limits starts i op m) (fetch : Fetch code f.pc i op)
    (leaves : Leaves code f.pc) : ∃ c, m = .ret c ∧ f.entry? = some c.entry := by
  obtain ⟨j, op', fetch', flow⟩ := leaves
  obtain ⟨rfl, rfl⟩ := fetch.unique fetch'
  obtain ⟨c, hc, rfl⟩ := h.exists_ret flow
  exact ⟨c, rfl, congrArg (Option.map Call.entry) hc⟩

end Frame

end Check

end StackFlow
