import Mcfunction.Proofs.Flat
import Mcfunction.Proofs.RoundTrip

/-! Scripts of what was read. A command that is read takes along words of the tree and values that lie on one line, with
a block at its end at most. Main statement: every command that a tidy tree reads has a script, whatever the texts of
its blocks are. -/

namespace Mcfunction.Parser

variable {p : Parser} {indent : Option Nat} {c e : Cursor} {n : Node} {B : Node → List Char → Prop}

def OneLine (n : Node) : Prop := Text.Flat n.text

abbrev FlatScript (root : CommandTree) (B : Node → List Char → Prop) := Script root OneLine B

theorem Took.script {spot : Spot} {ws : List String} {ns : List Node} (h : Took p indent spot c ws ns e)
    (hreg : p.registry "" = none)
    (hblocks : ∀ d value e, d.remaining ≤ c.remaining → p.blockArgument indent d = .ok (value, e) →
      ∃ text, B value text) : ∃ t, FlatScript p.tree B spot ws ns t := by
  have later : ∀ {c d : Cursor}, c.Reaches d → (∀ e value f, e.remaining ≤ c.remaining →
      p.blockArgument indent e = .ok (value, f) → ∃ text, B value text) → ∀ e value f, e.remaining ≤ d.remaining →
        p.blockArgument indent e = .ok (value, f) → ∃ text, B value text :=
    fun hcd hblocks e value f he => hblocks e value f (le_trans he hcd.remaining_le)
  induction h with
  | literal hchild hrole _ ih =>
    obtain ⟨t, hscript⟩ := ih (later (Cursor.reaches_drop _ _) hblocks)
    exact ⟨_, .literal hchild hrole (word_unblank _) hscript⟩
  | @value owner entry l c x ws ns e hentry harg hleaf hx _ ih =>
    obtain ⟨t, hscript⟩ := ih (later x.ahead hblocks)
    have hplaced := Leaf.read_placed hx
    have hreader : entry.2.reader? ≠ none := by
      intro hnone
      rw [hnone, Option.getD_none, hreg] at hleaf
      cases hleaf
    exact ⟨_, .value hentry harg hreader hplaced.plain.isPart hplaced.flat.text hscript⟩
  | block hentry hblock hexec hreach hread =>
    obtain ⟨text, htext⟩ := hblocks _ _ _ hreach.remaining_le hread
    exact ⟨text, .block hentry hblock hexec htext⟩
  | separated hgap _ ih =>
    obtain ⟨t, hscript⟩ := ih (later ⟨1, (gap_ok hgap).2⟩ hblocks)
    exact ⟨_, .separated hscript⟩
  | complete hexec => exact ⟨[], .complete hexec⟩
  | next hred _ ih =>
    obtain ⟨t, hscript⟩ := ih hblocks
    exact ⟨t, .follows (CommandTree.following_of_none hred).symm hscript⟩
  | aliased hred htarget hsub _ ih =>
    obtain ⟨t, hscript⟩ := ih hblocks
    exact ⟨t, .follows (CommandTree.following_of_alias hred htarget hsub).symm hscript⟩
  | subcommand hred htarget hsub hgap hform _ ih =>
    obtain ⟨t, hscript⟩ := ih (later ⟨1, (gap_ok hgap).2⟩ hblocks)
    exact ⟨_, .subcommand ⟨hred, htarget, hsub⟩ hform hscript⟩

theorem outcome_scripted (hreg : p.registry = .standard) (htidy : p.tree.Tidy) (hroot : p.tree.Regular) {l : Location}
    (hblocks : ∀ d value e, d.remaining ≤ c.remaining → p.blockArgument indent d = .ok (value, e) →
      ∃ text, B value text) (h : p.outcome indent (.child p.tree { start := l }) c = .ok (n, e)) :
    ∃ ws ns t, n.form = .command (":".intercalate ws) ns ∧ FlatScript p.tree B (.child p.tree) ws ns t := by
  obtain ⟨ws, ns, hform, htook⟩ := outcome_took hreg htidy hroot h
  obtain ⟨t, hscript⟩ := htook.script (by rw [hreg, Registry.standard_empty]) hblocks
  exact ⟨ws, ns, t, hform, hscript⟩

end Mcfunction.Parser
