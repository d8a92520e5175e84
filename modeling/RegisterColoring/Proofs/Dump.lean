import RegisterColoring.Round.Basic

/-!
Dumps can be read back. After what it takes to read a text from its front come the text of a graph
and the text of a colored round.
-/

namespace RegisterColoring

/-!
Reading what was written. A way of writing is free of prefixes when the front of a text determines
what stands there, whatever follows. Numbers are not: a further digit makes another number. They can
be read before a text that does not go on with a digit, and lists before one that does not look like
a further item.
-/

/-- The text is not empty, and its first character is in the class. -/
def Begins (p : Char → Prop) (s : String) : Prop := ∃ c, s.toList.head? = some c ∧ p c

section

variable {α β : Type}

/-- The front of a text determines what is written there and what follows. -/
def PrefixFree (write : α → String) : Prop :=
  ∀ a b s t, write a ++ s = write b ++ t → a = b ∧ s = t

/-- The same, where what follows is known to begin with a character of the class. -/
def ReadsBefore (p : Char → Prop) (write : α → String) : Prop :=
  ∀ a b s t, Begins p s → Begins p t → write a ++ s = write b ++ t → a = b ∧ s = t

variable {p q : Char → Prop} {s t : String}

theorem Begins.append (h : Begins p s) : Begins p (s ++ t) := by
  obtain ⟨c, hc, hp⟩ := h
  refine ⟨c, ?_, hp⟩
  rw [String.toList_append, List.head?_append, hc, Option.some_or]

theorem Begins.absurd (h : Begins p s) (h' : Begins (¬ p ·) s) : False := by
  obtain ⟨c, hc, hp⟩ := h
  obtain ⟨d, hd, hnp⟩ := h'
  exact hnp (Option.some.inj (hc.symm.trans hd) ▸ hp)

variable {write : α → String}

theorem PrefixFree.readsBefore (free : PrefixFree write) : ReadsBefore p write :=
  fun a b s t _ _ h => free a b s t h

namespace ReadsBefore

/-- It is enough that the texts differ and keep to characters that cannot follow: the text ends at
the first other character. -/
theorem of_injective [DecidablePred p] (injective : ∀ a b, write a = write b → a = b)
    (within : ∀ a, ∀ c ∈ (write a).toList, p c) : ReadsBefore (¬ p ·) write := by
  have front : ∀ a s, Begins (¬ p ·) s →
      (write a ++ s).toList.takeWhile (p ·) = (write a).toList := by
    intro a s ⟨c, hc, hp⟩
    obtain ⟨cs, hs⟩ := List.head?_eq_some_iff.mp hc
    have hwithin : ∀ c ∈ (write a).toList, decide (p c) = true := by simpa using within a
    rw [String.toList_append, List.takeWhile_append_of_pos hwithin, hs,
      List.takeWhile_cons_of_neg (by simpa using hp), List.append_nil]
  intro a b s t hs ht h
  have same : write a = write b := by
    rw [← String.toList_inj, ← front a s hs, ← front b t ht, h]
  rw [same, String.append_right_inj] at h
  exact ⟨injective a b same, h⟩

theorem comp (reads : ReadsBefore p write) (key : β → α)
    (injective : ∀ a b, key a = key b → a = b) : ReadsBefore p fun b => write (key b) := by
  intro a b s t hs ht h
  obtain ⟨hkey, hrest⟩ := reads _ _ s t hs ht h
  exact ⟨injective a b hkey, hrest⟩

theorem after (reads : ReadsBefore p write) (text : String) :
    ReadsBefore p fun a => text ++ write a := by
  intro a b s t hs ht h
  rw [String.append_assoc, String.append_assoc, String.append_right_inj] at h
  exact reads a b s t hs ht h

theorem narrow (reads : ReadsBefore p write) {c : Char} (hc : p c) :
    ReadsBefore (· = c) write := by
  have wider : ∀ s, Begins (· = c) s → Begins p s := by
    rintro s ⟨_, hs, rfl⟩
    exact ⟨_, hs, hc⟩
  intro a b s t hs ht h
  exact reads a b s t (wider s hs) (wider t ht) h

/-- Reads on past the mark that ends what was written. -/
theorem upTo (reads : ReadsBefore p write) {a b : α} {mark : String}
    (h : write a ++ (mark ++ s) = write b ++ (mark ++ t)) (hmark : Begins p mark) :
    a = b ∧ s = t := by
  obtain ⟨hab, hrest⟩ := reads a b _ _ hmark.append hmark.append h
  exact ⟨hab, (String.append_right_inj mark).mp hrest⟩

/-- A mark at the end makes the rest immaterial. -/
theorem closed (reads : ReadsBefore p write) {mark : String} (hmark : Begins p mark) :
    PrefixFree fun a => write a ++ mark := by
  intro a b s t h
  rw [String.append_assoc, String.append_assoc] at h
  exact reads.upTo h hmark

end ReadsBefore

/-- Items that can be read one by one, and whose beginning tells them from what follows the list. -/
theorem PrefixFree.join (item : PrefixFree write)
    (begins : ∀ a, Begins q (write a)) :
    ReadsBefore (¬ q ·) fun as : List α => String.join (as.map write) := by
  intro as
  induction as with
  | nil =>
    intro bs s t hs _ h
    cases bs with
    | nil => exact ⟨rfl, by simpa using h⟩
    | cons b bs =>
      have hb : s = write b ++ (String.join (bs.map write) ++ t) := by
        simpa [String.append_assoc] using h
      exact ((begins b).append.absurd (hb ▸ hs)).elim
  | cons a as ih =>
    intro bs s t hs ht h
    cases bs with
    | nil =>
      have ha : t = write a ++ (String.join (as.map write) ++ s) := by
        simpa [String.append_assoc] using h.symm
      exact ((begins a).append.absurd (ha ▸ ht)).elim
    | cons b bs =>
      simp only [List.map_cons, String.join_cons, String.append_assoc] at h
      obtain ⟨rfl, hitems⟩ := item a b _ _ h
      obtain ⟨rfl, hrest⟩ := ih bs s t hs ht hitems
      exact ⟨rfl, hrest⟩

end

theorem isDigit_of_mem_repr {n : Nat} {c : Char} (hc : c ∈ n.repr.toList) : c.isDigit := by
  rw [Nat.toList_repr] at hc
  exact Nat.isDigit_of_mem_toDigits (by decide) (by decide) hc

theorem eq_of_repr_eq {m n : Nat} (h : m.repr = n.repr) : m = n := by
  have hdigits : Nat.toDigits 10 m = Nat.toDigits 10 n := by
    rw [← Nat.toList_repr, ← Nat.toList_repr, h]
  rw [← Nat.ofDigitChars_ten_toDigits (n := m), hdigits, Nat.ofDigitChars_ten_toDigits]

/-- A natural number is not written with a sign. -/
theorem repr_ne_minus_append {n : Nat} {s : String} : n.repr ≠ "-" ++ s := by
  intro h
  have hminus : '-' ∈ n.repr.toList := by simp [h]
  exact absurd (isDigit_of_mem_repr hminus) (by decide)

theorem eq_of_int_repr_eq {m n : Int} (h : m.repr = n.repr) : m = n := by
  rw [Int.repr_eq_if, Int.repr_eq_if] at h
  split at h <;> split at h
  · have hnat := eq_of_repr_eq h
    omega
  · exact absurd h repr_ne_minus_append
  · exact absurd h.symm repr_ne_minus_append
  · have hnat := eq_of_repr_eq ((String.append_right_inj "-").mp h)
    omega

/-- A number ends where the digits end. -/
theorem readsBefore_natural : ReadsBefore (¬ ·.isDigit) fun n : Nat => toString n := by
  apply ReadsBefore.of_injective
  · exact fun _ _ => eq_of_repr_eq
  · exact fun _ _ => isDigit_of_mem_repr

theorem readsBefore_integer :
    ReadsBefore (fun c => ¬ (c.isDigit ∨ c = '-')) fun n : Int => toString n := by
  apply ReadsBefore.of_injective
  · exact fun _ _ => eq_of_int_repr_eq
  · intro n c hc
    rw [Int.toString_eq_repr, Int.repr_eq_if] at hc
    split at hc
    · exact .inl (isDigit_of_mem_repr hc)
    · rw [String.toList_append] at hc
      rcases List.mem_append.mp hc with hc | hc
      · exact .inr (by simpa using hc)
      · exact .inl (isDigit_of_mem_repr hc)

theorem Value.readsBefore_text : ReadsBefore (¬ ·.isDigit) Value.text :=
  (readsBefore_natural.comp (fun v : Value => v.id.toNat)
    fun _ _ h => congrArg Value.mk (UInt32.toNat_inj.mp h)).after "v"

theorem Register.readsBefore_text : ReadsBefore (¬ ·.isDigit) Register.text :=
  (readsBefore_natural.comp (fun r : Register => r.id.toNat)
    fun _ _ h => congrArg Register.mk (UInt16.toNat_inj.mp h)).after "r"

/-!
The text of a graph can be read back. It stands for a list of rows, one for each node, and texts are
equal exactly when the rows are: when the graphs have the same nodes, and each node the same degree
and the same neighbors.
-/

/-- A frame as one chain of texts, each line with the end that belongs to it. -/
theorem framed_eq (heading : String) (lines : List String) : framed heading lines =
    heading ++ ("\n" ++ (dumpRule ++ ("\n" ++
      (String.join (lines.map fun line => line ++ "\n") ++ dumpRule)))) := by
  have closed : ∀ ls : List String, String.intercalate "\n" (ls ++ [dumpRule]) =
      String.join (ls.map fun line => line ++ "\n") ++ dumpRule := by
    intro ls
    induction ls with
    | nil => simp
    | cons l ls ih =>
      rw [List.cons_append, String.intercalate_cons_of_ne_nil (by simp), ih, List.map_cons,
        String.join_cons]
      simp only [String.append_assoc]
  rw [framed, List.cons_append, List.cons_append, String.intercalate_cons_cons,
    String.intercalate_cons_of_ne_nil (by simp), closed]
  simp only [String.append_assoc]

/-- No line begins like the closing rule, so the frame shows where the lines end. -/
theorem framed_eq_iff {κ α : Type} {head : κ → String} {write : α → String}
    (heading : ReadsBefore (· = '\n') head) (line : ReadsBefore (· = '\n') write)
    (begins : ∀ a, Begins (· ≠ '-') (write a)) {k l : κ} {as bs : List α} :
    framed (head k) (as.map write) = framed (head l) (bs.map write) ↔ k = l ∧ as = bs := by
  have newline : Begins (· = '\n') "\n" := ⟨'\n', rfl, rfl⟩
  have rule : Begins (¬ · ≠ '-') dumpRule := ⟨'-', rfl, by decide⟩
  have lines := (line.closed newline).join fun a => (begins a).append
  constructor
  · intro h
    simp only [framed_eq, List.map_map] at h
    obtain ⟨rfl, hlines⟩ := heading.upTo h newline
    simp only [String.append_right_inj] at hlines
    exact ⟨rfl, (lines as bs _ _ rule rule hlines).1⟩
  · rintro ⟨rfl, rfl⟩
    rfl

/-- Lists that run through two sets and tell which element each entry is of. -/
theorem FiniteSet.map_sorted_eq_iff {α β : Type} [LE α] [DecidableLE α] [Std.IsLinearOrder α]
    {f g : α → β} (key : β → α) (hf : ∀ x, key (f x) = x) (hg : ∀ x, key (g x) = x)
    {s t : FiniteSet α} :
    s.sorted.map f = t.sorted.map g ↔ (∀ x, x ∈ s ↔ x ∈ t) ∧ ∀ x ∈ s, f x = g x := by
  constructor
  · intro h
    have keys : s.sorted = t.sorted := by
      simpa [Function.comp_def, hf, hg] using congrArg (List.map key) h
    refine ⟨sorted_eq_iff.mp keys, fun x hx => ?_⟩
    rw [← keys] at h
    exact List.map_inj_left.mp h x (mem_sorted.mpr hx)
  · rintro ⟨same, agree⟩
    rw [← sorted_eq_iff.mpr same]
    exact List.map_inj_left.mpr fun x hx => agree x (mem_sorted.mp hx)

namespace Graph

/-- What the text says of a node. -/
structure Row where
  value : Value
  degree : Nat
  neighbors : List Value

namespace Row

def text (row : Row) : String :=
  "Interferences of " ++ row.value.text ++ " => " ++ toString row.degree ++ ": \x7b" ++
    String.join (row.neighbors.map fun n => n.text ++ ",") ++ "\x7d"

theorem begins_text (row : Row) : Begins (· ≠ '-') row.text := by
  unfold text
  simp only [String.append_assoc]
  exact .append ⟨'I', rfl, by decide⟩

theorem readsBefore_neighbors : ReadsBefore (¬ · = 'v') fun ns : List Value =>
    String.join (ns.map fun n => n.text ++ ",") := by
  apply PrefixFree.join
  · exact Value.readsBefore_text.closed ⟨',', rfl, by decide⟩
  · intro n
    simp only [Value.text, String.append_assoc]
    exact .append ⟨'v', rfl, rfl⟩

/-- The numbers end at what stands between them, and the neighbors at the brace. -/
theorem prefixFree_text : PrefixFree text := by
  rintro ⟨v, d, ns⟩ ⟨w, e, ms⟩ s t h
  unfold text at h
  simp only [String.append_assoc, String.append_right_inj] at h
  obtain ⟨rfl, hdegree⟩ := Value.readsBefore_text.upTo h ⟨' ', rfl, by decide⟩
  obtain ⟨rfl, hneighbors⟩ := readsBefore_natural.upTo hdegree ⟨':', rfl, by decide⟩
  obtain ⟨rfl, hrest⟩ := readsBefore_neighbors.upTo hneighbors ⟨'\x7d', rfl, by decide⟩
  exact ⟨rfl, hrest⟩

example : text ⟨⟨0⟩, 2, [⟨1⟩, ⟨12⟩]⟩ = "Interferences of v0 => 2: \x7bv1,v12,\x7d" := by decide

end Row

def row (g : Graph) (v : Value) : Row := ⟨v, g.degree v, (g.neighbors v).sorted⟩

def rows (g : Graph) : List Row := g.nodes.sorted.map g.row

theorem nodeText_eq (g : Graph) (v : Value) : g.nodeText v = (g.row v).text := rfl

/-- Graphs with the same nodes, of which each has the same degree and the same neighbors. A node
without a stored degree is of degree zero, and one without a neighbor set has no neighbors. -/
structure ShowsAlike (g h : Graph) : Prop where
  nodes : ∀ v, v ∈ g.nodes ↔ v ∈ h.nodes
  degree : ∀ v ∈ g.nodes, g.degree v = h.degree v
  neighbors : ∀ v ∈ g.nodes, ∀ w, w ∈ g.neighbors v ↔ w ∈ h.neighbors v

variable {g h : Graph}

theorem row_eq_iff {v : Value} : g.row v = h.row v ↔
    g.degree v = h.degree v ∧ ∀ w, w ∈ g.neighbors v ↔ w ∈ h.neighbors v := by
  simp [row, FiniteSet.sorted_eq_iff]

theorem showsAlike_iff_rows : g.ShowsAlike h ↔
    (∀ v, v ∈ g.nodes ↔ v ∈ h.nodes) ∧ ∀ v ∈ g.nodes, g.row v = h.row v := by
  simp only [row_eq_iff]
  constructor
  · intro alike
    exact ⟨alike.nodes, fun v hv => ⟨alike.degree v hv, alike.neighbors v hv⟩⟩
  · rintro ⟨nodes, rows⟩
    exact ⟨nodes, fun v hv => (rows v hv).1, fun v hv => (rows v hv).2⟩

theorem dump_eq (g : Graph) : g.dump = framed " Interference Graph:" (g.rows.map Row.text) := by
  rw [rows, List.map_map]
  rfl

theorem dump_eq_iff : g.dump = h.dump ↔ g.ShowsAlike h := by
  have heading : ReadsBefore (· = '\n') fun _ : Unit => " Interference Graph:" := by
    intro _ _ s t _ _ same
    exact ⟨rfl, (String.append_right_inj _).mp same⟩
  calc g.dump = h.dump
      ↔ () = () ∧ g.rows = h.rows := by
        rw [dump_eq, dump_eq]
        exact framed_eq_iff heading Row.prefixFree_text.readsBefore Row.begins_text
    _ ↔ g.rows = h.rows := and_iff_right rfl
    _ ↔ (∀ v, v ∈ g.nodes ↔ v ∈ h.nodes) ∧ ∀ v ∈ g.nodes, g.row v = h.row v :=
        FiniteSet.map_sorted_eq_iff Row.value (fun _ => rfl) fun _ => rfl
    _ ↔ g.ShowsAlike h := showsAlike_iff_rows.symm

end Graph

/-!
The text of a colored round can be read back as well. Its rows go on with a shade: the color of the
node and, where the color is a place among the candidates, the register that stands there. Nothing
that the text shows is lost, and nothing else decides it: two rounds are written alike exactly when
they agree on the seed and on what is said of each node.
-/

namespace Round

/-- What the text says of the color of a node. -/
inductive Shade where
  | real (index : Nat) (register : Option Register)
  | extended (id : Int32)
  | uncolored

namespace Shade

def text : Shade → String
  | real index register =>
    " -- COLOR => " ++ toString index ++ "::" ++ (register.map Register.text).getD "?"
  | extended id => " -- EXTENDED COLOR => " ++ toString id.toInt
  | uncolored => " -- UNCOLORED"

def color? : Shade → Option Color
  | real index _ => some (.real index)
  | extended id => some (.extended id)
  | uncolored => none

def register? : Shade → Option Register
  | real _ register => register
  | _ => none

theorem readsBefore_register : ReadsBefore (· = '\n') fun register : Option Register =>
    (register.map Register.text).getD "?" := by
  have named : ReadsBefore (· = '\n') Register.text :=
    Register.readsBefore_text.narrow (by decide)
  intro a b s t hs ht h
  cases a with
  | none =>
    cases b with
    | none => exact ⟨rfl, (String.append_right_inj "?").mp h⟩
    | some b => simp [Register.text, ← String.toList_inj] at h
  | some a =>
    cases b with
    | none => simp [Register.text, ← String.toList_inj] at h
    | some b =>
      obtain ⟨rfl, hrest⟩ := named a b s t hs ht h
      exact ⟨rfl, hrest⟩

theorem readsBefore_text : ReadsBefore (· = '\n') text := by
  have ids : ReadsBefore (· = '\n') fun id : Int32 => toString id.toInt :=
    (readsBefore_integer.comp Int32.toInt fun _ _ => Int32.toInt_inj.mp).narrow (by decide)
  intro a b s t hs ht h
  unfold text at h
  cases a <;> cases b
  case real.real i place j place' =>
    simp only [String.append_assoc, String.append_right_inj] at h
    obtain ⟨rfl, hplace⟩ := readsBefore_natural.upTo h ⟨':', rfl, by decide⟩
    obtain ⟨rfl, hrest⟩ := readsBefore_register place place' s t hs ht hplace
    exact ⟨rfl, hrest⟩
  case extended.extended c d =>
    simp only [String.append_assoc, String.append_right_inj] at h
    obtain ⟨rfl, hrest⟩ := ids c d s t hs ht h
    exact ⟨rfl, hrest⟩
  case uncolored.uncolored => exact ⟨rfl, (String.append_right_inj _).mp h⟩
  -- Shades of different kinds part at the first letter.
  all_goals simp [← String.toList_inj] at h

end Shade

/-- A row of the graph and the shade of its node. -/
structure ColoredRow where
  row : Graph.Row
  shade : Shade

namespace ColoredRow

def text (c : ColoredRow) : String := c.row.text ++ c.shade.text

theorem begins_text (c : ColoredRow) : Begins (· ≠ '-') c.text := c.row.begins_text.append

theorem readsBefore_text : ReadsBefore (· = '\n') text := by
  rintro ⟨row, shade⟩ ⟨row', shade'⟩ s t hs ht h
  simp only [text, String.append_assoc] at h
  obtain ⟨rfl, hshade⟩ := Graph.Row.prefixFree_text row row' _ _ h
  obtain ⟨rfl, hrest⟩ := Shade.readsBefore_text shade shade' s t hs ht hshade
  exact ⟨rfl, hrest⟩

end ColoredRow

def shade (r : Round) (v : Value) : Shade :=
  match r.color? v with
  | some (.real index) => .real index (r.resolved? v)
  | some (.extended id) => .extended id
  | none => .uncolored

def coloredRow (r : Round) (v : Value) : ColoredRow := ⟨r.graph.row v, r.shade v⟩

def coloredRows (r : Round) : List ColoredRow := r.graph.nodes.sorted.map r.coloredRow

variable {r s : Round} {v : Value}

theorem colorText_eq (r : Round) (v : Value) : r.colorText v = (r.shade v).text := by
  unfold colorText shade
  rcases r.color? v with _ | _ | _ <;> rfl

theorem color?_shade (r : Round) (v : Value) : (r.shade v).color? = r.color? v := by
  unfold shade
  rcases r.color? v with _ | _ | _ <;> rfl

/-- Only a real color stands for a register, so that none is lost with the other shades. -/
theorem register?_shade (r : Round) (v : Value) : (r.shade v).register? = r.resolved? v := by
  unfold shade resolved?
  rcases r.color? v with _ | _ | _ <;> rfl

theorem shade_eq_iff :
    r.shade v = s.shade v ↔ r.color? v = s.color? v ∧ r.resolved? v = s.resolved? v := by
  constructor
  · intro h
    rw [← color?_shade, ← register?_shade, h]
    exact ⟨color?_shade s v, register?_shade s v⟩
  · rintro ⟨hcolor, hregister⟩
    rw [shade, shade, hcolor, hregister]

/-- Rounds with the same seed and graphs that show alike, in which each node has the same color, or
none, and the same register, or none. -/
structure ShowsAlike (r s : Round) : Prop where
  seed : r.seed = s.seed
  graph : r.graph.ShowsAlike s.graph
  color : ∀ v ∈ r.graph.nodes, r.color? v = s.color? v
  register : ∀ v ∈ r.graph.nodes, r.resolved? v = s.resolved? v

theorem coloredRow_eq_iff : r.coloredRow v = s.coloredRow v ↔
    r.graph.row v = s.graph.row v ∧ r.color? v = s.color? v ∧ r.resolved? v = s.resolved? v := by
  rw [coloredRow, coloredRow, ColoredRow.mk.injEq, shade_eq_iff]

theorem showsAlike_iff_rows : r.ShowsAlike s ↔ r.seed = s.seed ∧
    (∀ v, v ∈ r.graph.nodes ↔ v ∈ s.graph.nodes) ∧
      ∀ v ∈ r.graph.nodes, r.coloredRow v = s.coloredRow v := by
  simp only [coloredRow_eq_iff]
  constructor
  · intro alike
    obtain ⟨nodes, rows⟩ := Graph.showsAlike_iff_rows.mp alike.graph
    exact ⟨alike.seed, nodes, fun v hv => ⟨rows v hv, alike.color v hv, alike.register v hv⟩⟩
  · rintro ⟨seed, nodes, rows⟩
    exact
      { seed := seed
        graph := Graph.showsAlike_iff_rows.mpr ⟨nodes, fun v hv => (rows v hv).1⟩
        color := fun v hv => (rows v hv).2.1
        register := fun v hv => (rows v hv).2.2 }

def heading (seed : UInt64) : String :=
  " Interference Graph (colored, seed " ++ toString seed.toNat ++ "):"

theorem prefixFree_heading : PrefixFree heading :=
  ((readsBefore_natural.comp UInt64.toNat fun _ _ => UInt64.toNat_inj.mp).after _).closed
    ⟨')', rfl, by decide⟩

theorem dumpColoring_eq (r : Round) :
    r.dumpColoring = framed (heading r.seed) (r.coloredRows.map ColoredRow.text) := by
  unfold dumpColoring coloredRows
  simp only [List.map_map, colorText_eq, Graph.nodeText_eq]
  rfl

/-- Two rounds are written alike exactly when they show the same, and so are their graphs. The sets
and tables of the two rounds may be enumerated in any order, and contradict each other in any way.
-/
theorem dumps_lose_nothing (r s : Round) :
    (r.dumpColoring = s.dumpColoring ↔ r.ShowsAlike s) ∧
      (r.graph.dump = s.graph.dump ↔ r.graph.ShowsAlike s.graph) := by
  refine ⟨?_, Graph.dump_eq_iff⟩
  calc r.dumpColoring = s.dumpColoring
      ↔ r.seed = s.seed ∧ r.coloredRows = s.coloredRows := by
        rw [dumpColoring_eq, dumpColoring_eq]
        exact framed_eq_iff prefixFree_heading.readsBefore ColoredRow.readsBefore_text
          ColoredRow.begins_text
    _ ↔ r.seed = s.seed ∧ (∀ v, v ∈ r.graph.nodes ↔ v ∈ s.graph.nodes) ∧
          ∀ v ∈ r.graph.nodes, r.coloredRow v = s.coloredRow v := by
        apply and_congr_right'
        exact FiniteSet.map_sorted_eq_iff (fun c : ColoredRow => c.row.value) (fun _ => rfl)
          fun _ => rfl
    _ ↔ r.ShowsAlike s := showsAlike_iff_rows.symm

end Round

end RegisterColoring
