import FeatureTree.Node.Printer
import FeatureTree.Node.Value
import FeatureTree.Proofs.Node.Places
import FeatureTree.Proofs.Value.Spelling

/-!
# A tree as lines

A walk comes by every node of a tree once, and each of them is one row of what is printed,
indented by the depth of its place (`pretty_eq_join`). Names are printed as they are, so the rows
are lines exactly where no name has a line end (`lineEnds_pretty`). In the JSON text names stand
in quotes, and what is in a node alone says how many lines it takes (`lineEnds_json`).
-/

namespace FeatureTree.Node

/-- What is printed of a node at a depth. -/
def row (depth : Nat) (m : Node) : String :=
  indentation depth ++ line m.kind m.name m.span m.body

theorem prettyAt_eq (depth : Nat) (n : Node) :
    n.prettyAt depth = row depth n ++ prettyAllAt (depth + 1) n.children := by
  cases n
  rw [prettyAt]
  rfl

/-- What is printed of a node at a place, below a node at a depth. -/
def placedRow (depth : Nat) (visit : List Nat × Node) : String :=
  row (depth + visit.1.length) visit.2

theorem prettyAllAt_eq_join {cs : List Node}
    (ih : ∀ c ∈ cs, ∀ depth, c.prettyAt depth = String.join (c.visits.map (placedRow depth)))
    (depth i : Nat) :
    prettyAllAt (depth + 1) cs = String.join ((visitsFrom i cs).map (placedRow depth)) := by
  induction cs generalizing i with
  | nil => rfl
  | cons c cs ihs =>
      obtain ⟨hc, hcs⟩ := List.forall_mem_cons.1 ih
      rw [prettyAllAt, visitsFrom, List.map_append, String.join_append, ← ihs hcs, hc,
        List.map_map]
      refine congrArg (String.join · ++ _) (List.map_congr_left fun visit _ => ?_)
      show row (depth + 1 + visit.1.length) visit.2 = row (depth + (visit.1.length + 1)) visit.2
      rw [Nat.add_right_comm, Nat.add_assoc]

/-- By induction on the tree: the children stand one deeper, and the place of what is below them
is one longer. -/
theorem prettyAt_eq_join (n : Node) (depth : Nat) :
    n.prettyAt depth = String.join (n.visits.map (placedRow depth)) := by
  induction n using Node.induction generalizing depth with
  | step n ih =>
      rw [prettyAt_eq, visits_eq, List.map_cons, String.join_cons, prettyAllAt_eq_join ih depth 0]
      rfl

/-- There is one row for each node, in the order of a walk and indented by the depth. -/
theorem pretty_eq_join (n : Node) : n.pretty = String.join (n.visits.map (placedRow 0)) :=
  prettyAt_eq_join n 0

/-! ## Ends of lines -/

open Text (lineEnds lineEnds_append lineEnds_repr lineEnds_eq_zero_iff)

theorem lineEnds_span (span : Span) : lineEnds (toString span) = 0 := by
  have hdots : lineEnds ".." = 0 := rfl
  show lineEnds (toString span.start ++ ".." ++ toString span.stop) = 0
  simp [hdots]

theorem lineEnds_kind (k : Kind) : lineEnds k.name = 0 := by cases k <;> rfl

/-- The line ends in the name of a node. -/
def nameEnds (m : Node) : Nat := (m.name.map lineEnds).getD 0

theorem lineEnds_indentation (depth : Nat) : lineEnds (indentation depth) = 0 := by
  rw [lineEnds_eq_zero_iff, indentation, String.toList_ofList, List.mem_replicate]
  rintro ⟨-, h⟩
  cases h

/-- The line ends of a row are its own one and those of the name. -/
theorem lineEnds_row (depth : Nat) (m : Node) : lineEnds (row depth m) = 1 + m.nameEnds := by
  have hkind : lineEnds (toString m.kind) = 0 := lineEnds_kind m.kind
  have hquote : lineEnds "\"" = 0 := rfl
  have hopen : lineEnds " \"" = 0 := rfl
  have hat : lineEnds " @" = 0 := rfl
  have hbody : lineEnds " body@" = 0 := rfl
  have hend : lineEnds "\n" = 1 := rfl
  have htext : ∀ s : String, toString s = s := fun _ => rfl
  rw [row, lineEnds_append, lineEnds_indentation, line.eq_def, nameEnds]
  cases m.name <;> cases m.body <;>
    simp [htext, hkind, hquote, hopen, hat, hbody, hend, lineEnds_span, Nat.add_comm]

/-- A tree is printed in one line for each node, and more where names have line ends. -/
theorem lineEnds_pretty (n : Node) :
    lineEnds n.pretty = n.preorder.length + (n.preorder.map nameEnds).sum := by
  have hrows : ∀ visits : List (List Nat × Node),
      lineEnds (String.join (visits.map (placedRow 0))) =
        (visits.map (·.2)).length + ((visits.map (·.2)).map nameEnds).sum := by
    intro visits
    induction visits with
    | nil => rfl
    | cons visit visits ih =>
        rw [List.map_cons, String.join_cons, lineEnds_append, ih, placedRow, lineEnds_row,
          List.map_cons, List.length_cons, List.map_cons, List.sum_cons]
        omega
  rw [pretty_eq_join, hrows, map_snd_visits]

/-! ## The JSON text -/

open Value (NumbersIn ItemsIn entriesIn_iff lines linesItems linesEntries)

theorem numbersIn_span (span : Span) : span.toValue.NumbersIn fun _ => True :=
  ⟨trivial, trivial, trivial⟩

mutual

theorem numbersIn_toValue : (n : Node) → n.toValue.NumbersIn fun _ => True
  | ⟨kind, name, children, span, body⟩ => by
      refine entriesIn_iff.2 ?_
      simp only [List.forall_mem_append, List.forall_mem_singleton]
      refine ⟨⟨⟨⟨trivial, ?_⟩, ?_⟩, numbersIn_span span⟩, ?_⟩
      · cases name with
        | none => exact nofun
        | some s => exact List.forall_mem_singleton.2 trivial
      · cases children with
        | nil => exact nofun
        | cons c cs => exact List.forall_mem_singleton.2 (itemsIn_toValues (c :: cs))
      · cases body with
        | none => exact nofun
        | some b => exact List.forall_mem_singleton.2 (numbersIn_span b)

theorem itemsIn_toValues : (ns : List Node) → ItemsIn (fun _ => True) (toValues ns)
  | [] => trivial
  | n :: ns => ⟨numbersIn_toValue n, itemsIn_toValues ns⟩

end

/-- The lines of a node in the JSON text, without those of its children: two brackets, the kind,
four lines for each span, and what else there is. -/
def jsonLines (m : Node) : Nat :=
  7 + (if m.name.isSome then 1 else 0) + (if m.children = [] then 0 else 2) +
    (if m.body.isSome then 4 else 0)

mutual

theorem lines_toValue : (n : Node) → n.toValue.lines = (n.preorder.map jsonLines).sum
  | ⟨kind, name, children, span, body⟩ => by
      have hchildren : linesEntries (childrenEntry (toValues children)) =
          (if children = [] then 0 else 2) + ((preorderAll children).map jsonLines).sum := by
        rw [← linesItems_toValues children]
        cases children with
        | nil => rfl
        | cons c cs => exact Nat.add_comm _ 2
      have hname : (linesEntries <| entry? "name" Value.text name) =
          if name.isSome then 1 else 0 := by cases name <;> rfl
      have hbody : (linesEntries <| entry? "body" Span.toValue body) =
          if body.isSome then 4 else 0 := by cases body <;> rfl
      have hspan : linesEntries [("span", span.toValue)] = 4 := rfl
      rw [preorder, List.map_cons, List.sum_cons, jsonLines]
      show linesEntries (([("kind", .text kind.name)] ++ _ ++ _ ++ _) ++ _) + 2 = _
      simp only [Value.linesEntries_append, hname, hchildren, hspan, hbody]
      have hkind : linesEntries [("kind", .text kind.name)] = 1 := rfl
      omega

theorem linesItems_toValues :
    (ns : List Node) → linesItems (toValues ns) = ((preorderAll ns).map jsonLines).sum
  | [] => rfl
  | n :: ns => by
      rw [toValues, linesItems, lines_toValue n, linesItems_toValues ns, preorderAll,
        List.map_append, List.sum_append]

end

/-- The JSON text of a tree has the lines of its nodes. No name adds to them. -/
theorem lineEnds_json (n : Node) :
    lineEnds n.toValue.pretty + 1 = (n.preorder.map jsonLines).sum := by
  rw [Value.lineEnds_pretty _ n.numbersIn_toValue, lines_toValue]

end FeatureTree.Node
