import StackFlow.Proofs.Assembly

/-!
# Which programs can be finished

A program for a builder may append any bytes, place a label many times, and
refer to labels before they are placed, or to labels that the builder does not
have.  It can be finished if each label that is jumped to stands somewhere, near
enough (`finish_assemble`); otherwise the first jump that cannot be resolved is
the one reported.

What is filled in lies inside the three bytes of the jump that left room for it:
the fixups of a builder stand apart from one another and inside its bytes
(`Builder.Spaced`), which every act keeps.
-/

namespace StackFlow.Builder

variable {b : Builder} {code code' : Code} {f : Fixup} {fs : List Fixup} {k : Nat}

/-! ## Filling in, one displacement after the other -/

/-- Two fixups do not share any bytes. -/
def Apart (f g : Fixup) : Prop := f.base + 2 < g.base

theorem getElem?_patch {base : Nat} (d : Int) (h : base + 2 < code.size) (k : Nat) :
    (patch code base d)[k]? =
      if k = base + 2 then some (Displacement.low d)
      else if k = base + 1 then some (Displacement.high d) else code[k]? := by
  have lt : base + 1 < code.size := Nat.lt_of_succ_lt h
  simp only [patch, Array.set!_eq_setIfInBounds, Array.getElem?_setIfInBounds,
    Array.size_setIfInBounds, h, lt, if_true, eq_comm (b := k)]

/-- Displacements are filled in if all of them can be. -/
theorem exists_fill_iff :
    (∃ code', b.fill fs code = .ok code') ↔ ∀ f ∈ fs, ∃ d, b.displacement f = .ok d := by
  induction fs generalizing code with
  | nil => exact ⟨fun _ f hf ↦ absurd hf List.not_mem_nil, fun _ ↦ ⟨code, rfl⟩⟩
  | cons f fs ih =>
    rw [List.forall_mem_cons, fill_cons]
    cases b.displacement f with
    | error e =>
      constructor
      · rintro ⟨_, h⟩
        cases h
      · rintro ⟨⟨_, h⟩, -⟩
        cases h
    | ok d => exact ih.trans ⟨fun h ↦ ⟨⟨d, rfl⟩, h⟩, And.right⟩

/-- The error is that of the first displacement that cannot be filled in. -/
theorem fill_eq_error_iff {e : BuildError} :
    b.fill fs code = .error e ↔ ∃ before f after, fs = before ++ f :: after ∧
      (∀ g ∈ before, ∃ d, b.displacement g = .ok d) ∧ b.displacement f = .error e := by
  constructor
  · intro h
    induction fs generalizing code with
    | nil => cases h
    | cons f fs ih =>
      rw [fill_cons] at h
      cases here : b.displacement f with
      | error e' =>
        rw [here] at h
        cases h
        exact ⟨[], f, fs, rfl, fun g hg ↦ absurd hg List.not_mem_nil, here⟩
      | ok d =>
        rw [here] at h
        obtain ⟨before, g, after, rfl, fine, fails⟩ := ih h
        exact ⟨f :: before, g, after, rfl, List.forall_mem_cons.mpr ⟨⟨d, here⟩, fine⟩, fails⟩
  · rintro ⟨before, f, after, rfl, fine, fails⟩
    have filled : ∃ code', b.fill before code = .ok code' := exists_fill_iff.mpr fine
    obtain ⟨code', filled⟩ := filled
    rw [fill, List.foldlM_append]
    change b.fill before code >>= b.fill (f :: after) = _
    rw [filled]
    change b.fill (f :: after) code' = _
    rw [fill_cons, fails]
    rfl

/-- Each displacement stands behind its opcode byte in the end, and all other bytes are as they
were. -/
theorem getElem?_of_fill (apart : fs.Pairwise Apart) (inside : ∀ f ∈ fs, f.base + 2 < code.size)
    (h : b.fill fs code = .ok code') :
    (∀ k, (∀ f ∈ fs, k ≠ f.base + 1 ∧ k ≠ f.base + 2) → code'[k]? = code[k]?) ∧
    ∀ f ∈ fs, ∃ d, b.displacement f = .ok d ∧
      code'[f.base + 1]? = some (Displacement.high d) ∧
      code'[f.base + 2]? = some (Displacement.low d) := by
  induction fs generalizing code with
  | nil =>
    cases h
    exact ⟨fun _ _ ↦ rfl, fun f hf ↦ absurd hf List.not_mem_nil⟩
  | cons f fs ih =>
    obtain ⟨after, apart⟩ := List.pairwise_cons.mp apart
    obtain ⟨here, inside⟩ := List.forall_mem_cons.mp inside
    rw [fill_cons] at h
    obtain ⟨d, displacement, h⟩ := bind_eq_ok.mp h
    obtain ⟨others, filled⟩ := ih apart (by rwa [size_patch]) h
    refine ⟨fun k hk ↦ ?_, List.forall_mem_cons.mpr ⟨⟨d, displacement, ?_, ?_⟩, filled⟩⟩
    · obtain ⟨⟨ne, ne'⟩, rest⟩ := List.forall_mem_cons.mp hk
      rw [others k rest, getElem?_patch d here, if_neg ne', if_neg ne]
    -- the fixups that follow lie behind the bytes of this one
    · have rest : ∀ g ∈ fs, f.base + 1 ≠ g.base + 1 ∧ f.base + 1 ≠ g.base + 2 := by
        intro g hg
        have : f.base + 2 < g.base := after g hg
        omega
      rw [others _ rest, getElem?_patch d here, if_neg (by omega), if_pos rfl]
    · have rest : ∀ g ∈ fs, f.base + 2 ≠ g.base + 1 ∧ f.base + 2 ≠ g.base + 2 := by
        intro g hg
        have : f.base + 2 < g.base := after g hg
        omega
      rw [others _ rest, getElem?_patch d here, if_pos rfl]

/-- A displacement cannot be filled in if its label stands nowhere, or too far away. -/
theorem displacement_eq_error {e : BuildError} :
    b.displacement f = .error e ↔
      (∀ t, b.labels[f.label.number]?.join ≠ some t) ∧ e = .unresolvedLabel ∨
      ∃ t : Nat, b.labels[f.label.number]?.join = some t ∧ ¬ Displacement.Fits (t - f.base) ∧
        e = .displacementOutOfRange f.base t := by
  unfold displacement
  split
  · next h =>
    rw [h]
    constructor
    · intro error
      cases error
      refine .inl ⟨fun t ht ↦ ?_, rfl⟩
      cases ht
    · rintro (⟨-, rfl⟩ | ⟨t, ht, -⟩)
      · rfl
      · cases ht
  · next t h =>
    rw [h]
    dsimp only
    split
    · next fits =>
      constructor
      · intro error
        cases error
      · rintro (⟨none, -⟩ | ⟨_, ht, unfit, -⟩)
        · exact absurd rfl (none t)
        · cases ht
          exact absurd fits unfit
    · next unfit =>
      constructor
      · intro error
        cases error
        exact .inr ⟨t, rfl, unfit, rfl⟩
      · rintro (⟨none, -⟩ | ⟨_, ht, -, rfl⟩)
        · exact absurd rfl (none t)
        · cases ht
          rfl

/-! ## Programs with bytes of any kind -/

/-- An act of a program: a step, or bytes as they are. -/
inductive Act where
  | step (s : Step)
  | raw (bytes : List UInt8)
deriving DecidableEq

namespace Act

def apply (b : Builder) : Act → Builder
  | step s => s.apply b
  | raw bytes => b.raw bytes

/-- The label that the act jumps to. -/
def label? : Act → Option Label
  | step (.jump l) | step (.jumpIf l) | step (.call l) => some l
  | _ => none

end Act

/-- The builder at the end of a program. -/
def assemble (acts : List Act) : Builder := acts.foldl Act.apply {}

/-- The label jumps of a program in order, each with the offset at which the builder stands before
it. -/
def jumps (b : Builder) : List Act → List Fixup
  | [] => []
  | a :: acts => a.label?.toList.map (⟨b.pc, ·⟩) ++ jumps (a.apply b) acts

/-- The number of labels that a program makes. -/
def made (acts : List Act) : Nat := acts.count (.step .label)

/-- The label stands where the program places it for the last time, if it had been made by then. -/
def Stands (acts : List Act) (l : Label) (t : Nat) : Prop :=
  ∃ before after, acts = before ++ .step (.place l) :: after ∧ .step (.place l) ∉ after ∧
    l.number < made before ∧ t = (assemble before).pc

/-- A jump can be resolved if its label stands somewhere, near enough. -/
def Resolves (acts : List Act) (j : Fixup) : Prop :=
  ∃ t : Nat, Stands acts j.label t ∧ Displacement.Fits (t - j.base)

/-- Why a jump cannot be resolved. -/
def Fails (acts : List Act) (j : Fixup) (e : BuildError) : Prop :=
  (∀ t, ¬ Stands acts j.label t) ∧ e = .unresolvedLabel ∨
  ∃ t : Nat, Stands acts j.label t ∧ ¬ Displacement.Fits (t - j.base) ∧
    e = .displacementOutOfRange j.base t

variable {a : Act} {acts acts' : List Act} {l : Label} {t : Nat}

theorem assemble_concat (acts : List Act) (a : Act) :
    assemble (acts ++ [a]) = a.apply (assemble acts) := List.foldl_concat ..

/-- An act appends bytes and leaves room for a displacement if it jumps to a label. -/
theorem Act.apply_cases (a : Act) (b : Builder) :
    (a.label? = none ∧ ∃ bytes, (a.apply b).withLabels #[] = (b.raw bytes).withLabels #[]) ∨
    ∃ o l, a.label? = some l ∧ a.apply b = b.toLabel o l := by
  have silent (s : Step) (h : s.emits = false) :
      ∃ bytes, (s.apply b).withLabels #[] = (b.raw bytes).withLabels #[] :=
    ⟨[], (Step.withLabels_apply b #[] h).trans (by simp [withLabels, Builder.raw])⟩
  cases a with
  | raw bytes => exact .inl ⟨rfl, bytes, rfl⟩
  | step s =>
    cases s with
    | label => exact .inl ⟨rfl, silent _ rfl⟩
    | place l => exact .inl ⟨rfl, silent _ rfl⟩
    | op o => exact .inl ⟨rfl, _, rfl⟩
    | push data =>
      obtain ⟨k, immediate, raw, -⟩ := push_eq_raw b data
      exact .inl ⟨rfl, _, congrArg (withLabels · #[]) raw⟩
    | pushNumber n =>
      obtain ⟨k, immediate, raw, -⟩ := push_eq_raw b ((digits 256 n.toNat).map UInt8.ofNat)
      exact .inl ⟨rfl, _, congrArg (withLabels · #[]) raw⟩
    | jump l | jumpIf l | call l => exact .inr ⟨_, l, rfl, rfl⟩
    | relative o d relative fits =>
      exact .inl ⟨rfl, _, congrArg (withLabels · #[]) (relative_eq_raw b d relative)⟩

theorem Act.fixups_apply (a : Act) (b : Builder) :
    (a.apply b).fixups.toList = b.fixups.toList ++ a.label?.toList.map (⟨b.pc, ·⟩) := by
  rcases a.apply_cases b with ⟨none, bytes, same⟩ | ⟨o, l, some, same⟩
  · have fixups : (a.apply b).fixups = b.fixups := (congrArg Builder.fixups same :)
    rw [none, fixups]
    exact (List.append_nil _).symm
  · rw [some, same]
    exact Array.toList_push

theorem Act.pc_le_apply (a : Act) (b : Builder) : b.pc ≤ (a.apply b).pc := by
  rcases a.apply_cases b with ⟨-, bytes, same⟩ | ⟨o, l, -, same⟩
  · have pc : (a.apply b).pc = (b.raw bytes).pc := (congrArg Builder.pc same :)
    rw [pc, pc_raw]
    exact Nat.le_add_right _ _
  · rw [same, pc_toLabel]
    exact Nat.le_add_right _ _

/-! ## The fixups of a program are its label jumps -/

theorem fixups_foldl (acts : List Act) (b : Builder) :
    (acts.foldl Act.apply b).fixups.toList = b.fixups.toList ++ jumps b acts := by
  induction acts generalizing b with
  | nil => exact (List.append_nil _).symm
  | cons a acts ih => rw [List.foldl_cons, ih, a.fixups_apply, jumps, List.append_assoc]

theorem fixups_assemble (acts : List Act) : (assemble acts).fixups.toList = jumps {} acts :=
  fixups_foldl acts {}

theorem jumps_append (acts acts' : List Act) (b : Builder) :
    jumps b (acts ++ acts') = jumps b acts ++ jumps (acts.foldl Act.apply b) acts' := by
  induction acts generalizing b with
  | nil => rfl
  | cons a acts ih => rw [List.cons_append, jumps, jumps, ih, List.append_assoc, List.foldl_cons]

theorem le_base_of_mem_jumps (h : f ∈ jumps b acts) : b.pc ≤ f.base := by
  induction acts generalizing b with
  | nil => cases h
  | cons a acts ih =>
    rcases List.mem_append.mp h with h | h
    · obtain ⟨l, -, rfl⟩ := List.mem_map.mp h
      exact Nat.le_refl _
    · exact Nat.le_trans (a.pc_le_apply b) (ih h)

/-- The room for each displacement lies inside the bytes, and apart from that for the others. -/
structure Spaced (b : Builder) : Prop where
  inside : b.Inside
  apart : b.fixups.toList.Pairwise Apart

theorem spaced_empty : Spaced {} := ⟨inside_empty, .nil⟩

theorem Spaced.apply (h : b.Spaced) (a : Act) : (a.apply b).Spaced := by
  rcases a.apply_cases b with ⟨-, bytes, same⟩ | ⟨o, l, -, same⟩
  · have inside : ((a.apply b).withLabels #[]).Inside := by
      rw [same]
      exact h.inside.raw bytes
    have fixups : (a.apply b).fixups = b.fixups := (congrArg Builder.fixups same :)
    exact ⟨inside, by rw [fixups]; exact h.apart⟩
  · rw [same]
    refine ⟨h.inside.toLabel o l, ?_⟩
    have fixups : (b.toLabel o l).fixups.toList = b.fixups.toList ++ [⟨b.pc, l⟩] :=
      Array.toList_push
    rw [fixups, List.pairwise_append]
    refine ⟨h.apart, List.pairwise_singleton _ _, fun f hf g hg ↦ ?_⟩
    rw [List.mem_singleton.mp hg]
    exact h.inside f (Array.mem_toList_iff.mp hf)

theorem spaced_assemble (acts : List Act) : (assemble acts).Spaced := by
  induction acts using List.reverseRecOn with
  | nil => exact spaced_empty
  | append_singleton acts a ih =>
    rw [assemble_concat]
    exact ih.apply a

/-- What is filled in for a jump lies in the bytes that its own act has appended. -/
theorem eq_of_mem_jumps {before after : List Act} (hf : f ∈ jumps {} (before ++ a :: after))
    (low : (assemble before).pc ≤ f.base + 2) (high : f.base + 1 < (assemble (before ++ [a])).pc) :
    a.label? = some f.label ∧ f.base = (assemble before).pc := by
  rw [jumps_append, List.mem_append] at hf
  rcases hf with hf | hf
  · rw [← fixups_assemble, Array.mem_toList_iff] at hf
    have : f.base + 2 < (assemble before).pc := (spaced_assemble before).inside f hf
    omega
  · rcases List.mem_append.mp hf with hf | hf
    · obtain ⟨l, here, rfl⟩ := List.mem_map.mp hf
      exact ⟨Option.mem_toList.mp here, rfl⟩
    · have := le_base_of_mem_jumps hf
      rw [assemble_concat] at high
      change (a.apply (assemble before)).pc ≤ f.base at this
      omega

/-! ## Where labels stand -/

theorem made_concat_label (acts : List Act) : made (acts ++ [.step .label]) = made acts + 1 := by
  rw [made, List.count_append, made, List.count_singleton_self]

theorem made_concat (h : a ≠ .step .label) : made (acts ++ [a]) = made acts := by
  rw [made, List.count_append, made, List.count_singleton, beq_false_of_ne h]
  rfl

/-- Only a step that makes or places a label changes the labels. -/
theorem Act.labels_apply (b : Builder) (label : a ≠ .step .label)
    (place : ∀ l, a ≠ .step (.place l)) : (a.apply b).labels = b.labels := by
  cases a with
  | raw bytes => rfl
  | step s =>
    cases emits : s.emits with
    | true => exact Step.labels_apply b emits
    | false =>
      cases s with
      | label => exact absurd rfl label
      | place l => exact absurd rfl (place l)
      | _ => cases emits

theorem size_labels_assemble (acts : List Act) : (assemble acts).labels.size = made acts := by
  induction acts using List.reverseRecOn with
  | nil => rfl
  | append_singleton acts a ih =>
    rw [assemble_concat]
    by_cases label : a = .step .label
    · subst label
      rw [made_concat_label, ← ih]
      exact Array.size_push none
    · rw [made_concat label, ← ih]
      by_cases place : ∃ l, a = .step (.place l)
      · obtain ⟨l, rfl⟩ := place
        change ((Builder.place (assemble acts) l).toOption.getD (assemble acts)).labels.size = _
        rw [Builder.place]
        split
        · simp [Except.toOption]
        · rfl
      · rw [Act.labels_apply _ label fun l h ↦ place ⟨l, h⟩]

/-- An act of a program with one more at its end is the last one, or one of the others. -/
theorem concat_eq_append_cons {before after : List Act} {a' : Act} :
    acts ++ [a] = before ++ a' :: after ↔
      (a' = a ∧ before = acts ∧ after = []) ∨
      ∃ after', acts = before ++ a' :: after' ∧ after = after' ++ [a] := by
  constructor
  · intro eq
    rcases List.eq_nil_or_concat' after with rfl | ⟨after', last, rfl⟩
    · obtain ⟨rfl, same⟩ := List.append_inj' eq rfl
      exact .inl ⟨(List.cons.inj same).1.symm, rfl, rfl⟩
    · rw [← List.cons_append, ← List.append_assoc] at eq
      obtain ⟨rfl, same⟩ := List.append_inj' eq rfl
      exact .inr ⟨after', rfl, by rw [(List.cons.inj same).1]⟩
  · rintro (⟨rfl, rfl, rfl⟩ | ⟨after', rfl, rfl⟩)
    · rfl
    · rw [List.append_assoc, List.cons_append]

/-- An act that does not place the label leaves it where it stands. -/
theorem stands_concat (h : a ≠ .step (.place l)) : Stands (acts ++ [a]) l t ↔ Stands acts l t := by
  constructor
  · rintro ⟨before, after, eq, last, has, here⟩
    rcases concat_eq_append_cons.mp eq with ⟨same, -⟩ | ⟨after', rfl, rfl⟩
    · exact absurd same.symm h
    · exact ⟨before, after', rfl, fun mem ↦ last (List.mem_append_left _ mem), has, here⟩
  · rintro ⟨before, after, eq, last, has, here⟩
    refine ⟨before, after ++ [a], concat_eq_append_cons.mpr (.inr ⟨after, eq, rfl⟩), ?_, has, here⟩
    rw [List.mem_append, List.mem_singleton, not_or]
    exact ⟨last, h.symm⟩

/-- A label that has been made stands where it has just been placed. -/
theorem stands_concat_place :
    Stands (acts ++ [.step (.place l)]) l t ↔ l.number < made acts ∧ t = (assemble acts).pc := by
  constructor
  · rintro ⟨before, after, eq, last, has, here⟩
    rcases concat_eq_append_cons.mp eq with ⟨-, rfl, -⟩ | ⟨after', -, rfl⟩
    · exact ⟨has, here⟩
    · exact absurd (List.mem_append_right _ List.mem_cons_self) last
  · rintro ⟨has, here⟩
    exact ⟨acts, [], rfl, List.not_mem_nil, has, here⟩

/-- The builder keeps for each label where it stands. -/
theorem join_assemble_iff :
    (assemble acts).labels[l.number]?.join = some t ↔ Stands acts l t := by
  induction acts using List.reverseRecOn generalizing t with
  | nil =>
    constructor
    · intro h
      cases h
    · rintro ⟨before, after, eq, -⟩
      exact absurd eq.symm (List.append_ne_nil_of_right_ne_nil _ (List.cons_ne_nil _ _))
  | append_singleton acts a ih =>
    rw [assemble_concat]
    by_cases label : a = .step .label
    · subst label
      have other : Act.step .label ≠ .step (.place l) := fun h ↦ nomatch h
      rw [stands_concat other, ← ih]
      change ((assemble acts).labels.push none)[l.number]?.join = some t ↔ _
      rw [Array.getElem?_push]
      split
      · next last => simp [last]
      · rfl
    · by_cases place : ∃ m, a = .step (.place m)
      · obtain ⟨m, rfl⟩ := place
        change ((Step.place m).apply (assemble acts)).labels[l.number]?.join = some t ↔ _
        rw [join_place_iff, size_labels_assemble]
        by_cases same : m = l
        · subst same
          simp [stands_concat_place]
        · rw [stands_concat (by simpa using same), ← ih]
          simp [same]
      · rw [Act.labels_apply _ label fun m h ↦ place ⟨m, h⟩, ih,
          stands_concat fun h ↦ place ⟨l, h⟩]

theorem resolves_iff : Resolves acts f ↔ ∃ d, (assemble acts).displacement f = .ok d := by
  constructor
  · rintro ⟨t, stands, fits⟩
    exact ⟨_, displacement_eq_ok.mpr ⟨t, join_assemble_iff.mpr stands, rfl, fits⟩⟩
  · rintro ⟨d, h⟩
    obtain ⟨t, stands, rfl, fits⟩ := displacement_eq_ok.mp h
    exact ⟨t, join_assemble_iff.mp stands, fits⟩

theorem fails_iff {e : BuildError} :
    Fails acts f e ↔ (assemble acts).displacement f = .error e := by
  rw [displacement_eq_error, Fails]
  simp only [ne_eq, join_assemble_iff]

/-! ## Finishing a program -/

/-- A program can be finished if each of its label jumps can be resolved.  The code is then what
the builder holds, but for the displacements of these jumps, which lead to where the labels stand.
Otherwise the error is that of the first jump that cannot be resolved.  No displacement is filled
in outside the bytes, or in those that another act has appended. -/
theorem finish_assemble (acts : List Act) :
    ((∃ code, (assemble acts).finish = .ok code) ↔ ∀ j ∈ jumps {} acts, Resolves acts j) ∧
    (∀ code, (assemble acts).finish = .ok code → code.size = (assemble acts).pc ∧
      (∀ k, (∀ j ∈ jumps {} acts, k ≠ j.base + 1 ∧ k ≠ j.base + 2) →
        code[k]? = (assemble acts).bytes[k]?) ∧
      ∀ j ∈ jumps {} acts, ∃ (t : Nat) (hi lo : UInt8), Stands acts j.label t ∧
        code[j.base + 1]? = some hi ∧ code[j.base + 2]? = some lo ∧
        Displacement.ofBytes hi lo = t - j.base) ∧
    (∀ e, (assemble acts).finish = .error e ↔ ∃ before j after,
      jumps {} acts = before ++ j :: after ∧ (∀ i ∈ before, Resolves acts i) ∧ Fails acts j e) ∧
    (∀ f ∈ (assemble acts).fixups, f ∈ jumps {} acts ∧ f.base + 2 < (assemble acts).pc) ∧
    ∀ before a after, acts = before ++ a :: after → ∀ j ∈ jumps {} acts,
      ∀ k ∈ [j.base + 1, j.base + 2],
        (assemble before).pc ≤ k → k < (assemble (before ++ [a])).pc →
        a.label? = some j.label ∧ j.base = (assemble before).pc := by
  have spaced := spaced_assemble acts
  have fixups := fixups_assemble acts
  refine ⟨?_, fun code h ↦ ⟨size_of_finish h, ?_⟩, fun e ↦ ?_, fun f hf ↦ ⟨?_, spaced.inside f hf⟩,
    ?_⟩
  · rw [finish_eq_fill, exists_fill_iff, fixups]
    exact forall₂_congr fun j _ ↦ resolves_iff.symm
  · obtain ⟨others, filled⟩ := getElem?_of_fill spaced.apart
      (fun f hf ↦ spaced.inside f (Array.mem_toList_iff.mp hf)) h
    rw [fixups] at others filled
    refine ⟨others, fun j hj ↦ ?_⟩
    obtain ⟨d, displacement, hi, lo⟩ := filled j hj
    obtain ⟨t, stands, rfl, fits⟩ := displacement_eq_ok.mp displacement
    exact ⟨t, _, _, join_assemble_iff.mp stands, hi, lo, Displacement.ofBytes_high_low fits⟩
  · rw [finish_eq_fill, fill_eq_error_iff, fixups]
    simp only [resolves_iff, fails_iff]
  · rwa [← fixups, Array.mem_toList_iff]
  · rintro before a after rfl j hj k hk low high
    refine eq_of_mem_jumps hj ?_ ?_
    · simp only [List.mem_cons, List.not_mem_nil, or_false] at hk
      omega
    · simp only [List.mem_cons, List.not_mem_nil, or_false] at hk
      omega

/-- A jump forward over raw bytes to a label that has been placed in front of it before. -/
def placedTwice : List Act :=
  [.step .label, .step (.place ⟨0⟩), .raw [0x5b], .step (.jumpIf ⟨0⟩), .raw [0x60],
    .step (.place ⟨0⟩), .step (.op .stop)]

theorem finish_assemble_placedTwice :
    (∃ code, (assemble placedTwice).finish = .ok code) ∧
    (assemble (placedTwice ++ [.step (.jump ⟨1⟩)])).finish = .error .unresolvedLabel := by
  constructor
  · refine (finish_assemble placedTwice).1.mpr fun j hj ↦ ?_
    have jump : j = ⟨1, ⟨0⟩⟩ := List.mem_singleton.mp hj
    rw [jump]
    exact resolves_iff.mpr ⟨4, rfl⟩
  · refine ((finish_assemble _).2.2.1 _).mpr ⟨[⟨1, ⟨0⟩⟩], ⟨6, ⟨1⟩⟩, [], rfl, fun i hi ↦ ?_, ?_⟩
    · rw [List.mem_singleton.mp hi]
      exact resolves_iff.mpr ⟨4, rfl⟩
    · exact fails_iff.mpr rfl

end StackFlow.Builder
