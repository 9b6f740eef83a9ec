import GsiIndexing.Memdb.SkiplistDelete

/-!
# The skiplist refines its contents

The calls of one writer, made one at a time, each with the caller's `ActionBuffer` and
`Stats`: `Insert3` at a level up to the list's `level`, `Insert2` (`NewLevel`, then `Insert3`),
`Delete` and `DeleteNode`. `callStep` runs one of them on the skiplist; a halt of the code
(a nil pointer read through, a swap that keeps failing, a loop out of fuel) is `none`.

* **`callStep_simulates`** — from a skiplist that holds some contents, an admissible call
  does not halt, replies as `Contents.step` does, and leaves a skiplist that holds the new
  contents;
* **`skiplist_refines`** — from `New`, every admissible sequence of calls replies as the
  contents do, and the skiplist holds, at every level up to `MaxLevel`, the entries the calls
  left.
-/

namespace Memdb.Store

variable {α : Type}

/-- One call run on the skiplist with the caller's buffer and `Stats`: the reply and what the
call leaves, or `none` when the code halts. -/
def callStep (cmp : α → α → Int) :
    Skiplist α × ActionBuffer × Stats → Call α → Option (Reply × (Skiplist α × ActionBuffer × Stats))
  | (s, buf, sts), .insert3 itm eqCmp itemLevel =>
    match s.insert3 itm cmp eqCmp buf itemLevel sts with
    | .ok (x, s, buf, sts) => some (.node x, (s, buf, sts))
    | .error _ => none
  | (s, buf, sts), .insert2 itm eqCmp draws =>
    match s.insert2 itm cmp eqCmp buf draws sts with
    | .ok (x, s, buf, sts) => some (.node x, (s, buf, sts))
    | .error _ => none
  | (s, buf, sts), .delete itm =>
    match s.delete itm cmp buf sts with
    | .ok (b, s, buf, sts) => some (.deleted b, (s, buf, sts))
    | .error _ => none
  | (s, buf, sts), .deleteNode n =>
    match s.deleteNode n cmp buf sts with
    | .ok (b, s, buf, sts) => some (.deleted b, (s, buf, sts))
    | .error _ => none

variable {cmp : α → α → Int}

/-- `New` holds no entries: each level is the head linked to the tail. -/
theorem holds_new : Holds cmp (Skiplist.new : Skiplist α) Contents.new := by
  refine ⟨⟨fun i _ => ?_, rfl, rfl, by simp [Contents.new], by simp [Contents.new], Nat.zero_le _,
    List.Pairwise.nil, ?_, fun a ha => ?_, by simp [Contents.new]⟩, rfl, rfl⟩
  · simp [LevelOk, levelNodes, Contents.new, Skiplist.new]
  · simp [Contents.new, Skiplist.new]
  · simp only [Contents.new, Skiplist.new, List.map_nil, List.append_nil, List.mem_cons,
      List.not_mem_nil, or_false] at ha
    rcases ha with rfl | rfl <;> simp [Skiplist.new]

variable (hc : CmpLaws cmp)

include hc in
/-- **One call**: from a skiplist that holds the contents, an admissible call replies as the
contents do and leaves a skiplist that holds theirs. -/
theorem callStep_simulates :
    Simulation.StepSimulates (fun (st : Skiplist α × ActionBuffer × Stats) c => Holds cmp st.1 c)
      (callStep cmp) (Contents.step cmp) Contents.Admits := by
  rintro ⟨s, buf, sts⟩ c call h hadm
  cases call with
  | insert3 itm eqCmp itemLevel =>
    obtain ⟨x, s', buf', sts', hrun, hreply, hholds⟩ := insert3_ok hc h hadm itm eqCmp buf sts
    exact ⟨(s', buf', sts'), by simp [callStep, hrun, Contents.step, hreply], hholds⟩
  | insert2 itm eqCmp draws =>
    obtain ⟨x, s', buf', sts', hrun, hreply, hholds⟩ := insert2_ok hc h itm eqCmp buf draws sts
    exact ⟨(s', buf', sts'), by simp [callStep, hrun, hreply], hholds⟩
  | delete itm =>
    obtain ⟨b, s', buf', sts', hrun, hreply, hholds⟩ := delete_ok hc h itm buf sts
    exact ⟨(s', buf', sts'), by simp [callStep, hrun, hreply], hholds⟩
  | deleteNode n =>
    obtain ⟨b, s', buf', sts', hrun, hreply, hholds⟩ := deleteNode_ok hc h hadm buf sts
    exact ⟨(s', buf', sts'), by simp [callStep, hrun, hreply], hholds⟩

include hc in
/-- **The skiplist refines its contents.** From `New`, with any buffer and `Stats`, every
admissible sequence of calls runs without a halt and each reply is the contents': an insert
returns nil exactly when an entry compares equal to its item under `insCmp` or `eqCmp` finds it
equal to the entry before it, and a delete reports whether an entry left. The skiplist ends up
holding the entries the calls left (`Holds`): at each level `i` up to `MaxLevel` the head, the
nodes of the entries of level `i` or above in the order of their items, strictly increasing,
and the tail; each entry's node has the entry's level, at most `level`, itself at most
`MaxLevel`. -/
theorem skiplist_refines (calls : List (Call α)) (buf : ActionBuffer) (sts : Stats)
    (hadm : Simulation.Admissible (Contents.step cmp) Contents.Admits Contents.new calls) :
    ∃ s' buf' sts', Simulation.run (callStep cmp) (Skiplist.new, buf, sts) calls =
        some ((Simulation.runSpec (Contents.step cmp) Contents.new calls).1, (s', buf', sts')) ∧
      Holds cmp s' (Simulation.runSpec (Contents.step cmp) Contents.new calls).2 := by
  obtain ⟨⟨s', buf', sts'⟩, hrun, hholds⟩ := Simulation.run_simulates _ (callStep_simulates hc)
    calls (Skiplist.new, buf, sts) Contents.new holds_new hadm
  exact ⟨s', buf', sts', hrun, hholds⟩

/-- `Int` items compared by their difference. -/
def intCmp (a b : Int) : Int := a - b

theorem cmpLaws_intCmp : CmpLaws intCmp :=
  ⟨fun a b => by unfold intCmp; omega, fun a b c hab hbc => by unfold intCmp at *; omega⟩

/-- Three inserts, the third of an item already there, a delete, and a `DeleteNode` of the
node it deleted. -/
def sampleCalls : List (Call Int) :=
  [.insert2 5 none 2, .insert2 3 none 0, .insert2 5 none 1, .delete 5, .deleteNode 2]

theorem skiplist_refines_sampleCalls :
    Simulation.Admissible (Contents.step intCmp) Contents.Admits Contents.new sampleCalls ∧
      (Simulation.runSpec (Contents.step intCmp) Contents.new sampleCalls).1 =
        [.node (some 2), .node (some 3), .node none, .deleted true, .deleted false] ∧
      ∃ s' buf' sts', Simulation.run (callStep intCmp) (Skiplist.new, ActionBuffer.make, Stats.zero)
          sampleCalls = some ((Simulation.runSpec (Contents.step intCmp) Contents.new sampleCalls).1,
            (s', buf', sts')) ∧
        Holds intCmp s' (Simulation.runSpec (Contents.step intCmp) Contents.new sampleCalls).2 :=
  ⟨by decide, by decide,
    skiplist_refines cmpLaws_intCmp sampleCalls ActionBuffer.make Stats.zero (by decide)⟩

end Memdb.Store
