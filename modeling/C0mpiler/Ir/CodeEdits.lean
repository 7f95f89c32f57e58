import C0mpiler.Ir.CoreBuilder
import Mathlib

/-!
# Insertions, as operations on the code

What the insertions and the replacement of an instruction do to the code of a module: a change of
the lists of one block, and the parent of the instruction.
-/

namespace Ir

namespace ModuleCore

variable {m m' : ModuleCore}

/-- Attaching an instruction changes its block and its parent. -/
theorem attachInst_code {block : BlockRef} {inst : InstRef} {g : BlockData → BlockData}
    (hg : ∀ bd, (g bd).code = g bd.code)
    (hrun : (m.updBlock block g).attachInst block inst = some m') :
    m'.code = (m.code.updBlock block g).updInst inst fun d => { d with parent := some block } := by
  have hparent : ((m.updBlock block g).updInst inst fun d => { d with parent := some block }).code =
      (m.updBlock block g).code.updInst inst fun d => { d with parent := some block } :=
    code_updInst inst fun _ => rfl
  rw [(registerInstUse_sameCode hrun).code_eq, hparent, code_updBlock block hg]

/-- An instruction is found at its first place in the block. -/
theorem locateInst_of_insts {i : InstRef} {d : InstData} {b : BlockRef} {bd : BlockData}
    (hd : m.code.inst i = some d) (hparent : d.parent = some b) (hb : m.code.block b = some bd)
    {before after : List InstId} (hinsts : bd.insts = before ++ i.inst :: after)
    (hfirst : i.inst ∉ before) : m.locateInst i = some (.inst before.length) := by
  obtain ⟨d, hinst, rfl⟩ := inst_of_code_inst hd
  obtain ⟨bd, hblock, rfl⟩ := block_of_code_block hb
  have hparent : d.parent = some b := hparent
  have hidx : bd.insts.findIdx? (· == i.inst) = some before.length := by
    have hinsts : bd.insts = before ++ i.inst :: after := hinsts
    rw [hinsts, List.findIdx?_append, List.findIdx?_eq_none_iff.mpr, Option.none_or,
      List.findIdx?_cons, beq_self_eq_true, if_pos rfl, Option.map_some, Nat.zero_add]
    intro j hj
    exact beq_eq_false_iff_ne.mpr fun h => hfirst (h ▸ hj)
  simp only [locateInst, hinst, hparent, hblock, hidx, Option.bind_eq_bind, Option.bind_some]

/-- An instruction in front of another one. -/
theorem insertBefore_code {anchor inst : InstRef} {d : InstData} {b : BlockRef} {bd : BlockData}
    (hd : m.code.inst anchor = some d) (hparent : d.parent = some b) (hb : m.code.block b = some bd)
    {before after : List InstId} (hinsts : bd.insts = before ++ anchor.inst :: after)
    (hfirst : anchor.inst ∉ before) (hrun : m.insertBefore anchor inst = some m') :
    m'.code = (m.code.updBlock b fun bd =>
      { bd with insts := bd.insts.insertIdx before.length inst.inst }).updInst inst
        fun d => { d with parent := some b } := by
  have hlocate := locateInst_of_insts hd hparent hb hinsts hfirst
  obtain ⟨d, hinst, rfl⟩ := inst_of_code_inst hd
  have hparent : d.parent = some b := hparent
  simp only [insertBefore, hinst, hparent, hlocate, Option.bind_eq_bind, Option.bind_some,
    Option.bind_eq_some_iff] at hrun
  obtain ⟨_, -, hrun⟩ := hrun
  exact attachInst_code (fun _ => rfl) hrun

end ModuleCore

end Ir
