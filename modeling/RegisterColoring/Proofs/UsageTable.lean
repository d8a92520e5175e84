import Mathlib.Algebra.Group.Basic
import Mathlib.Algebra.Ring.Nat
import Mathlib.Data.List.Induction
import RegisterColoring.UsageTable
import RegisterColoring.Weight

/-!
What a usage table knows about a value. The index is filled one operand at a time, and after each
instruction its sets name those so far that mention a value. So the references of a value are the
places of these instructions, and its cost is read off them alone: the accesses of each, times ten
for each loop around it, added up in their order with whatever operations there are. Two functions
that show a value the same instructions weigh it the same, wherever these stand and whatever stands
between them.
-/

namespace RegisterColoring

/-- Where products can be regrouped, squaring and multiplying by the bits of `n` gives the power. -/
theorem mulPow_eq_mul_pow {M : Type} [Monoid M] (acc base : M) (n : Nat) :
    mulPow (· * ·) acc base n = acc * base ^ n := by
  induction n using Nat.strongRecOn generalizing acc base with
  | ind n ih =>
    have hsplit : base ^ n = base ^ (n % 2) * (base * base) ^ (n / 2) := by
      rw [← pow_two, ← pow_mul, ← pow_add, Nat.mod_add_div]
    have hacc : (if n % 2 = 1 then acc * base else acc) = acc * base ^ (n % 2) := by
      rcases Nat.mod_two_eq_zero_or_one n with h | h <;> simp [h]
    rw [mulPow, hsplit, ← mul_assoc]
    simp only [hacc]
    by_cases hlast : n / 2 = 0
    · rw [if_pos hlast, hlast, pow_zero, mul_one]
    · rw [if_neg hlast, ih (n / 2) (by omega)]

namespace Arithmetic

/-- Computing without rounding. The power of ten comes about as for rounded numbers. -/
def exact (R : Type) [Semiring R] : Arithmetic R where
  empty := 0
  ofNat := Nat.cast
  add := (· + ·)
  mul := (· * ·)
  powTen := mulPow (· * ·) 1 10

theorem total_concat {α : Type} (A : Arithmetic α) (ts : List CostTerm) (t : CostTerm) :
    A.total (ts ++ [t]) = A.add (A.total ts) (A.mul (A.ofNat t.accesses) (A.powTen t.depth)) :=
  List.foldl_append

theorem total_exact (R : Type) [Semiring R] (ts : List CostTerm) :
    (exact R).total ts = (ts.map fun t => (t.accesses : R) * 10 ^ t.depth).sum := by
  induction ts using List.reverseRecOn with
  | nil => rfl
  | append_singleton ts t ih =>
    have hpower : (exact R).powTen t.depth = 10 ^ t.depth :=
      (mulPow_eq_mul_pow 1 10 t.depth).trans (one_mul _)
    rw [total_concat, ih, hpower, List.map_append, List.sum_append, List.map_singleton,
      List.sum_singleton]
    rfl

end Arithmetic

/-- The number of handles for instructions. -/
def instrCount : Nat := 4294967296

namespace Instr

/-- The handle of the instruction at a place. -/
def ofPlace (n : Nat) : Instr := ⟨.ofNat n⟩

theorem toNat_ofPlace {n : Nat} (h : n < instrCount) : (ofPlace n).id.toNat = n :=
  UInt32.toNat_ofNat_of_lt' h

theorem ofPlace_toNat (i : Instr) : ofPlace i.id.toNat = i := by
  rw [ofPlace, UInt32.ofNat_toNat]

theorem ofPlace_lt {m n : Nat} (h : m < n) (bound : n < instrCount) : ofPlace m < ofPlace n := by
  rw [lt_def, UInt32.lt_iff_toNat_lt, toNat_ofPlace (Nat.lt_trans h bound), toNat_ofPlace bound]
  exact h

end Instr

namespace Operands

variable {o : Operands} {v : Value}

/-- What an instruction adds to the cost of a value it mentions. -/
def term (o : Operands) (v : Value) : CostTerm where
  accesses := (if v ∈ o.reads then 1 else 0) + if v ∈ o.writes then 1 else 0
  depth := min o.loopDepth 35

/-- What matters to a value about an instruction: the depth that counts, and how it is accessed. -/
def seen (o : Operands) (v : Value) : Nat × Access := (min o.loopDepth 35, o.access v)

theorem mentions_iff : o.mentions v ↔ v ∈ o.reads ∨ v ∈ o.writes := by
  simp [mentions]

theorem access_ne_none_iff : o.access v ≠ .none ↔ o.mentions v := by
  rw [mentions_iff, ← not_iff_not]
  simp [access, Access.none]

theorem term_eq_of_seen : o.term v = ⟨(o.seen v).2.count, (o.seen v).1⟩ := by
  by_cases hr : v ∈ o.reads <;> by_cases hw : v ∈ o.writes <;>
    simp [term, seen, access, Access.count, hr, hw]

theorem accesses_term (h : o.mentions v) :
    (o.term v).accesses = 1 ∨ (o.term v).accesses = 2 := by
  rw [mentions_iff] at h
  by_cases hr : v ∈ o.reads <;> by_cases hw : v ∈ o.writes <;> simp_all [term]

end Operands

namespace UsageTable

variable {os : List Operands} {v : Value}

def ofOperands (os : List Operands) : UsageTable := os.foldl push empty

theorem ofOperands_concat (os : List Operands) (o : Operands) :
    ofOperands (os ++ [o]) = (ofOperands os).push o := List.foldl_append

theorem instrs_ofOperands (os : List Operands) : (ofOperands os).instrs = os := by
  induction os using List.reverseRecOn with
  | nil => rfl
  | append_singleton os o ih => rw [ofOperands_concat, push, ih]

/-- An instruction is noted once, however often it lists a value. -/
theorem mem_foldl_mention {index : FiniteMap Value (FiniteSet Instr)} {i j : Instr}
    {vs : List Value} : j ∈ ((vs.foldl (mention i) index).get? v).getD ∅ ↔
      (j = i ∧ v ∈ vs) ∨ j ∈ (index.get? v).getD ∅ := by
  induction vs generalizing index with
  | nil => simp
  | cons w vs ih =>
    rw [List.foldl_cons, ih, mention, FiniteMap.get?_insert]
    by_cases hvw : v = w
    · subst hvw
      rw [if_pos rfl, Option.getD_some, FiniteSet.mem_insert]
      simp only [List.mem_cons_self, and_true]
      tauto
    · simp [hvw]

theorem mem_references_push {t : UsageTable} {o : Operands} {j : Instr} :
    j ∈ (t.push o).references v ↔
      (j = t.nextInstr ∧ o.mentions v) ∨ j ∈ t.references v := by
  rw [references, references, FiniteSet.mem_sorted, FiniteSet.mem_sorted, push, mem_foldl_mention,
    List.mem_append, Operands.mentions_iff]

/-- The instructions that mention a value, each with its place. -/
def mentioning (os : List Operands) (v : Value) : List (Operands × Nat) :=
  os.zipIdx.filter fun m => m.1.mentions v

theorem mentioning_concat (os : List Operands) (o : Operands) (v : Value) :
    mentioning (os ++ [o]) v =
      mentioning os v ++ if o.mentions v then [(o, os.length)] else [] := by
  rw [mentioning, List.zipIdx_append, List.filter_append]
  simp [mentioning, List.filter_cons]

theorem mem_mentioning {m : Operands × Nat} :
    m ∈ mentioning os v ↔ os[m.2]? = some m.1 ∧ m.1.mentions v := by
  rw [mentioning, List.mem_filter, List.mem_zipIdx_iff_getElem?]

/-- For any number of instructions: handles that have wrapped around name several places. -/
theorem mem_references_ofOperands {j : Instr} :
    j ∈ (ofOperands os).references v ↔ ∃ m ∈ mentioning os v, j = .ofPlace m.2 := by
  induction os using List.reverseRecOn with
  | nil => simp [mentioning, ofOperands, empty, references]
  | append_singleton os o ih =>
    have hnext : (ofOperands os).nextInstr = .ofPlace os.length := by
      rw [nextInstr, instrs_ofOperands, Instr.ofPlace]
    rw [ofOperands_concat, mem_references_push, ih, hnext, mentioning_concat]
    by_cases ho : o.mentions v
    · simp [ho, or_comm]
    · simp [ho]

theorem lt_length_of_mem_mentioning {m : Operands × Nat} (h : m ∈ mentioning os v) :
    m.2 < os.length :=
  (List.getElem?_eq_some_iff.mp (mem_mentioning.mp h).1).1

theorem mentioning_ascending (os : List Operands) (v : Value) :
    (mentioning os v).Pairwise (·.2 < ·.2) := by
  have hplaces : (os.zipIdx.map Prod.snd).Pairwise (· < ·) := by
    rw [List.zipIdx_map_snd]
    exact List.pairwise_lt_range'
  exact (List.pairwise_map.mp hplaces).filter _

theorem map_fst_mentioning (os : List Operands) (v : Value) :
    (mentioning os v).map Prod.fst = os.filter (·.mentions v) := by
  have h := List.filter_map (f := Prod.fst) (p := (·.mentions v)) (l := os.zipIdx)
  rw [List.zipIdx_map_fst] at h
  exact h.symm

section Bounded

variable (bound : os.length ≤ instrCount)

include bound

theorem references_eq : (ofOperands os).references v =
    (mentioning os v).map fun m => .ofPlace m.2 := by
  apply eq_of_strict_of_mem_iff (FiniteSet.sorted_strict _)
  · refine List.pairwise_map.mpr ((mentioning_ascending os v).imp_of_mem ?_)
    intro m n _ hn hlt
    exact Instr.ofPlace_lt hlt (Nat.lt_of_lt_of_le (lt_length_of_mem_mentioning hn) bound)
  · intro i
    rw [← references, mem_references_ofOperands, List.mem_map]
    simp only [eq_comm]

theorem instr?_of_mem_mentioning {m : Operands × Nat} (h : m ∈ mentioning os v) :
    (ofOperands os).instr? (.ofPlace m.2) = some m.1 := by
  have hlt := Nat.lt_of_lt_of_le (lt_length_of_mem_mentioning h) bound
  rw [instr?, instrs_ofOperands, Instr.toNat_ofPlace hlt]
  exact (mem_mentioning.mp h).1

theorem mem_references_iff {i : Instr} : i ∈ (ofOperands os).references v ↔
    ∃ o, os[i.id.toNat]? = some o ∧ o.mentions v := by
  rw [mem_references_ofOperands]
  constructor
  · rintro ⟨m, hm, rfl⟩
    have hinstr := instr?_of_mem_mentioning bound hm
    rw [instr?, instrs_ofOperands] at hinstr
    exact ⟨m.1, hinstr, (mem_mentioning.mp hm).2⟩
  · rintro ⟨o, ho, hv⟩
    exact ⟨(o, i.id.toNat), mem_mentioning.mpr ⟨ho, hv⟩, i.ofPlace_toNat.symm⟩

theorem access_ne_none_iff {i : Instr} :
    (ofOperands os).access v i ≠ .none ↔ i ∈ (ofOperands os).references v := by
  rw [mem_references_iff bound, access, instr?, instrs_ofOperands]
  cases os[i.id.toNat]? with
  | none => simp
  | some o => simp [← Operands.access_ne_none_iff]

theorem costTerms_eq : (ofOperands os).usage.costTerms v =
    (os.filter (·.mentions v)).map (·.term v) := by
  have hreferences : (ofOperands os).usage.references v =
      (mentioning os v).map fun m => .ofPlace m.2 := references_eq bound
  rw [← map_fst_mentioning, Usage.costTerms, hreferences, List.map_map, List.map_map]
  apply List.map_congr_left
  intro m hm
  have hinstr := instr?_of_mem_mentioning bound hm
  simp [usage, access, loopDepth, hinstr, maxLoopDepth, Operands.term_eq_of_seen, Operands.seen]

end Bounded

/-- What matters to a value about a function, instruction by instruction. -/
def view (os : List Operands) (v : Value) : List (Nat × Access) :=
  (os.filter (·.mentions v)).map (·.seen v)

theorem costTerms_eq_of_view_eq {os os' : List Operands} (bound : os.length ≤ instrCount)
    (bound' : os'.length ≤ instrCount) (same : view os v = view os' v) :
    (ofOperands os).usage.costTerms v = (ofOperands os').usage.costTerms v := by
  have read : ∀ os : List Operands, (os.filter (·.mentions v)).map (·.term v) =
      (view os v).map fun s => ⟨s.2.count, s.1⟩ := by
    intro os
    simp only [view, List.map_map, Function.comp_def, Operands.term_eq_of_seen]
  rw [costTerms_eq bound, costTerms_eq bound', read, read, same]

theorem cost_eq {α : Type} (A : Arithmetic α) (bound : os.length ≤ instrCount) :
    (ofOperands os).usage.cost A v = (os.filter (·.mentions v)).foldl
      (fun sum o => A.add sum (A.mul (A.ofNat (o.term v).accesses) (A.powTen (o.term v).depth)))
      A.empty := by
  rw [Usage.cost, costTerms_eq bound, Arithmetic.total, List.foldl_map]
  rfl

/-- What the table says of a value is what the instructions say, in their order. -/
structure Reflects (os : List Operands) (v : Value) : Prop where
  ascending : ((ofOperands os).references v).Pairwise (· < ·)
  listed : ∀ i, i ∈ (ofOperands os).references v ↔
    ∃ o, os[i.id.toNat]? = some o ∧ (v ∈ o.reads ∨ v ∈ o.writes)
  used : ∀ i, (ofOperands os).access v i ≠ .none ↔ i ∈ (ofOperands os).references v
  terms : (ofOperands os).usage.costTerms v = (os.filter (·.mentions v)).map (·.term v)
  accesses : ∀ t ∈ (ofOperands os).usage.costTerms v, t.accesses = 1 ∨ t.accesses = 2
  cost : ∀ (α : Type) (A : Arithmetic α), (ofOperands os).usage.cost A v =
    (os.filter (·.mentions v)).foldl
      (fun sum o => A.add sum (A.mul (A.ofNat (o.term v).accesses) (A.powTen (o.term v).depth)))
      A.empty
  exact : ∀ (R : Type) [Semiring R], (ofOperands os).usage.cost (.exact R) v =
    ((os.filter (·.mentions v)).map fun o => ((o.term v).accesses : R) * 10 ^ (o.term v).depth).sum
  bits : ((ofOperands os).usage.weight v).bits =
    ((os.filter (·.mentions v)).foldl
      (fun (sum : Float) o => sum +
        Float.ofNat (o.term v).accesses * mulPow (· * ·) 1.0 10.0 (o.term v).depth)
      (-0.0)).toBits

theorem reflects (bound : os.length ≤ instrCount) (v : Value) : Reflects os v where
  ascending := FiniteSet.sorted_strict _
  listed i := by simp only [mem_references_iff bound, Operands.mentions_iff]
  used _ := access_ne_none_iff bound
  terms := costTerms_eq bound
  accesses t ht := by
    rw [costTerms_eq bound] at ht
    obtain ⟨o, ho, rfl⟩ := List.mem_map.mp ht
    exact Operands.accesses_term (List.mem_filter.mp ho).2
  cost _ A := cost_eq A bound
  exact R _ := by
    rw [Usage.cost, costTerms_eq bound, Arithmetic.total_exact, List.map_map]
    rfl
  bits := by
    rw [Usage.weight, cost_eq .rounded bound]
    rfl

/-- A usage table keeps, of each value, the instructions that mention it, and weighs it by what
these say of it. Whatever operations the cost is computed with, two functions in which a value looks
the same give it the same one; so the weights agree in every bit, however they are rounded. -/
theorem mentions_decide_weight :
    (∀ (os : List Operands) (v : Value), os.length ≤ instrCount → Reflects os v) ∧
      ∀ (os os' : List Operands) (v : Value), os.length ≤ instrCount →
        os'.length ≤ instrCount → view os v = view os' v →
          (ofOperands os).usage.costTerms v = (ofOperands os').usage.costTerms v ∧
            (∀ (α : Type) (A : Arithmetic α),
              (ofOperands os).usage.cost A v = (ofOperands os').usage.cost A v) ∧
            ((ofOperands os).usage.weight v).bits = ((ofOperands os').usage.weight v).bits := by
  refine ⟨fun os v bound => reflects bound v, ?_⟩
  intro os os' v bound bound' same
  have hterms := costTerms_eq_of_view_eq bound bound' same
  have hcost : ∀ (α : Type) (A : Arithmetic α),
      (ofOperands os).usage.cost A v = (ofOperands os').usage.cost A v := by
    intro α A
    rw [Usage.cost, Usage.cost, hterms]
  refine ⟨hterms, hcost, ?_⟩
  rw [Usage.weight, Usage.weight, hcost]

def deepLoop : List Operands := [⟨40, [⟨0⟩, ⟨0⟩, ⟨1⟩], [⟨0⟩]⟩, ⟨1, [⟨1⟩], []⟩, ⟨2, [], [⟨0⟩]⟩]

/-- The same to the first value as `deepLoop`, with other instructions between. -/
def cappedLoop : List Operands := [⟨9, [⟨5⟩], []⟩, ⟨35, [⟨0⟩], [⟨0⟩, ⟨0⟩]⟩, ⟨2, [⟨6⟩], [⟨0⟩]⟩]

theorem deepLoop_weighs_as_capped :
    (ofOperands deepLoop).references ⟨0⟩ = [⟨0⟩, ⟨2⟩] ∧
      (ofOperands cappedLoop).references ⟨0⟩ = [⟨1⟩, ⟨2⟩] ∧
      (ofOperands deepLoop).usage.costTerms ⟨0⟩ = [⟨2, 35⟩, ⟨1, 2⟩] ∧
      (ofOperands deepLoop).usage.cost (.exact Nat) ⟨0⟩ = 2 * 10 ^ 35 + 1 * 10 ^ 2 ∧
      ((ofOperands deepLoop).usage.weight ⟨0⟩).bits =
        ((ofOperands cappedLoop).usage.weight ⟨0⟩).bits := by
  obtain ⟨hreflects, hsame⟩ := mentions_decide_weight
  have h := hreflects deepLoop ⟨0⟩ (by decide)
  refine ⟨by decide +kernel, by decide +kernel, h.terms.trans (by decide +kernel),
    (h.exact Nat).trans (by decide +kernel), ?_⟩
  exact (hsame deepLoop cappedLoop ⟨0⟩ (by decide) (by decide) (by decide +kernel)).2.2

end UsageTable

end RegisterColoring
