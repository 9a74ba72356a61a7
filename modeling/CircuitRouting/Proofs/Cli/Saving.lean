import CircuitRouting.Cli.Rehearsal
import CircuitRouting.Proofs.Cli.FileTree
import CircuitRouting.Proofs.Cli.OutputName

/-!
# The files of a batch at the end

When a batch has been saved, every circuit that compiled has its program, and its configuration if that
was asked for, in files of its own, as long as no two circuits share a file name.
-/

namespace CircuitRouting

open OutputName (join stems isSafe)

namespace Rehearsal

variable {α β : Type} {x : Command (StateM Rehearsal) α} {f : α → Command (StateM Rehearsal) β}
  {a : α} {b : β} {s s' : Rehearsal} {path text line : String}

-- A command succeeds and changes the state.
def Runs (x : Command (StateM Rehearsal) α) (s : Rehearsal) (a : α) (s' : Rehearsal) : Prop :=
  Id.run (x.run.run s) = (.ok a, s')

theorem runs_bind_iff : Runs (x >>= f) s b s' ↔ ∃ a t, Runs x s a t ∧ Runs (f a) t b s' := by
  rcases eq : Id.run (x.run.run s) with ⟨r, t⟩
  simp only [Runs, ExceptT.run_bind, StateT.run_bind, Id.run_bind, eq]
  cases r <;> simp

theorem runs_pure_iff {a' : α} : Runs (pure a) s a' s' ↔ a = a' ∧ s = s' := by
  simp [Runs]

theorem not_runs_throw {e : CliError} : ¬Runs (throw e) s a s' := by
  simp [Runs]

theorem runs_lift_iff {m : StateM Rehearsal α} : Runs (liftM m) s a s' ↔ Id.run (m.run s) = (a, s') := by
  rcases eq : Id.run (m.run s) with ⟨a', t⟩
  simp [Runs, eq]

theorem of_change {g : FileTree → Except PathError FileTree} {u : Unit}
    (h : Id.run ((change g).run s) = (.ok u, s')) :
    g s.tree = .ok s'.tree := by
  cases result : g s.tree
  case error e => simp [change, result] at h
  case ok tree =>
    simp [change, result] at h
    rw [← h]

theorem tree_of_err (h : Runs (host.err line) s () s') : s'.tree = s.tree := by
  cases h
  rfl

theorem tree_of_report (h : Runs (host.report line) s () s') : s'.tree = s.tree :=
  tree_of_err h

theorem write_of_writeText (h : Runs (host.writeText path text) s () s') :
    s.tree.write path text = .ok s'.tree := by
  have ⟨r, t, wrote, done⟩ := runs_bind_iff.mp h
  cases r
  case error => exact absurd done not_runs_throw
  case ok =>
    have ⟨_, same⟩ := runs_pure_iff.mp done
    subst same
    have wrote := runs_lift_iff.mp wrote
    exact of_change (g := (·.write path text)) wrote

end Rehearsal

namespace Cli

open Rehearsal

variable {a : CompileArgs} {dir stem stem' : String} {c c' : CompiledCircuit} {t : FileTree}
  {s s' : Rehearsal}

-- A circuit has its files in a directory.
structure Saved (a : CompileArgs) (dir stem : String) (c : CompiledCircuit) (t : FileTree) : Prop where
  program : ∃ text, c.qasm = .ok text ∧ t.read (join dir (stem ++ ".qasm")) = .text text
  config : a.config → t.read (join dir (stem ++ ".json")) = .text c.config.toJson.pretty

theorem of_save {qasm config : String} (h : Runs (save host a dir stem qasm config) s () s') :
    ∃ t, s.tree.write (join dir (stem ++ ".qasm")) qasm = .ok t ∧
      if a.config then t.write (join dir (stem ++ ".json")) config = .ok s'.tree else t = s'.tree := by
  have ⟨_, s₁, wrote, h⟩ := runs_bind_iff.mp h
  have ⟨_, s₂, told, h⟩ := runs_bind_iff.mp h
  refine ⟨s₁.tree, write_of_writeText wrote, ?_⟩
  split at h
  case isTrue asked =>
    have ⟨_, s₃, wrote', told'⟩ := runs_bind_iff.mp h
    rw [if_pos asked, ← tree_of_report told, tree_of_report told']
    exact write_of_writeText wrote'
  case isFalse asked =>
    have ⟨_, same⟩ := runs_pure_iff.mp h
    rw [if_neg asked, ← tree_of_report told, same]

-- What is told before saving does not change the files.
theorem of_emit (out : a.output = some dir) (h : Runs (emit host a stem c) s () s') :
    ∃ qasm s₁, c.qasm = .ok qasm ∧ s₁.tree = s.tree ∧
      Runs (save host a dir stem qasm c.config.toJson.pretty) s₁ () s' := by
  have ⟨_, s₁, told, h⟩ := runs_bind_iff.mp h
  cases emitted : c.qasm
  case error e =>
    simp only [emitted, out] at h
    split at h
    case isTrue =>
      have ⟨_, s₂, _, h⟩ := runs_bind_iff.mp h
      have ⟨_, _, thrown, _⟩ := runs_bind_iff.mp h
      exact absurd thrown not_runs_throw
    case isFalse =>
      have ⟨_, _, thrown, _⟩ := runs_bind_iff.mp h
      exact absurd thrown not_runs_throw
  case ok qasm =>
    simp only [emitted, out, pure_bind] at h
    split at h
    case isTrue =>
      have ⟨_, s₂, shown, h⟩ := runs_bind_iff.mp h
      exact ⟨qasm, s₂, rfl, (tree_of_err shown).trans (tree_of_report told), h⟩
    case isFalse => exact ⟨qasm, s₁, rfl, tree_of_report told, h⟩

section Names

variable {ext ext' : String}

theorem isName_append (safe : MadeOf isSafe stem) (plain : MadeOf (· ≠ '/') ext)
    (long : 2 < ext.length) : FileTree.IsName (stem ++ ext) := by
  have short : ∀ s : String, s.length ≤ 2 → stem ++ ext ≠ s := by
    rintro _ short rfl
    rw [String.length_append] at short
    omega
  exact ⟨(safe.avoids (by decide)).append plain, short "" (by decide), short "." (by decide),
    short ".." (by decide)⟩

theorem append_inj_of_length_eq (same : ext.length = ext'.length) (eq : stem ++ ext = stem' ++ ext') :
    stem = stem' ∧ ext = ext' := by
  replace eq := congrArg String.toList eq
  rw [String.toList_append, String.toList_append] at eq
  have ⟨left, right⟩ := List.append_inj' eq same
  exact ⟨String.toList_inj.mp left, String.toList_inj.mp right⟩

end Names

theorem isName_program (safe : MadeOf isSafe stem) : FileTree.IsName (stem ++ ".qasm") :=
  isName_append safe (by decide) (by decide)

theorem isName_config (safe : MadeOf isSafe stem) : FileTree.IsName (stem ++ ".json") :=
  isName_append safe (by decide) (by decide)

theorem program_ne_config : stem ++ ".qasm" ≠ stem' ++ ".json" := fun eq =>
  absurd (append_inj_of_length_eq (by decide) eq).2 (by decide)

-- Saving a circuit keeps the other files.
theorem read_of_save_of_ne {qasm config f text : String} (safe : MadeOf isSafe stem)
    (name : FileTree.IsName f) (ne : f ≠ stem ++ ".qasm") (ne' : f ≠ stem ++ ".json")
    (h : Runs (save host a dir stem qasm config) s () s')
    (before : s.tree.read (join dir f) = .text text) : s'.tree.read (join dir f) = .text text := by
  have ⟨t, wrote, rest⟩ := of_save h
  have between := FileTree.read_of_write_of_ne name (isName_program safe) ne before wrote
  split at rest
  case isTrue => exact FileTree.read_of_write_of_ne name (isName_config safe) ne' between rest
  case isFalse => exact rest ▸ between

theorem saved_of_emit (safe : MadeOf isSafe stem) (out : a.output = some dir)
    (h : Runs (emit host a stem c) s () s') : Saved a dir stem c s'.tree := by
  have ⟨qasm, s₁, emitted, _, h⟩ := of_emit out h
  have ⟨t, wrote, rest⟩ := of_save h
  have program := FileTree.read_of_write (isName_program safe) wrote
  split at rest
  case isTrue =>
    have kept := FileTree.read_of_write_of_ne (isName_program safe) (isName_config safe)
      program_ne_config program rest
    exact ⟨⟨qasm, emitted, kept⟩, fun _ => FileTree.read_of_write (isName_config safe) rest⟩
  case isFalse asked => exact ⟨⟨qasm, emitted, rest ▸ program⟩, fun config => absurd config asked⟩

theorem Saved.emit (safe : MadeOf isSafe stem) (safe' : MadeOf isSafe stem') (ne : stem ≠ stem')
    (out : a.output = some dir) (saved : Saved a dir stem c s.tree)
    (h : Runs (emit host a stem' c') s () s') : Saved a dir stem c s'.tree := by
  have ⟨_, s₁, _, same, h⟩ := of_emit out h
  have ⟨text, emitted, program⟩ := saved.program
  have apart : ∀ {ext : String}, stem ++ ext ≠ stem' ++ ext := fun eq =>
    ne (append_inj_of_length_eq rfl eq).1
  refine ⟨⟨text, emitted, ?program⟩, fun asked => ?config⟩
  case program =>
    exact read_of_save_of_ne safe' (isName_program safe) apart program_ne_config h (same ▸ program)
  case config =>
    exact read_of_save_of_ne safe' (isName_config safe) program_ne_config.symm apart h
      (same ▸ saved.config asked)

section Loop

-- What became of a circuit, with its file name.
abbrev Item := (String × Except CompileError CompiledCircuit) × Option String

-- Circuits that compiled have file names, and others have none.
def Item.Paired (x : Item) : Prop :=
  x.2.isSome = x.1.2.toBool ∧ ∀ stem ∈ x.2, MadeOf isSafe stem

def emitItem (a : CompileArgs) (x : Item) : Command (StateM Rehearsal) Unit :=
  emitEntry host a x.1.1 x.2 x.1.2

variable {x : Item} {items : List Item}

theorem Saved.emitItem (paired : x.Paired) (safe : MadeOf isSafe stem) (ne : x.2 ≠ some stem)
    (out : a.output = some dir) (saved : Saved a dir stem c s.tree)
    (h : Runs (emitItem a x) s () s') : Saved a dir stem c s'.tree := by
  have ⟨⟨name, r⟩, o⟩ := x
  have ⟨compiled, safe'⟩ := paired
  cases r
  case error e => exact tree_of_report h ▸ saved
  case ok c' =>
    have ⟨stem', eq⟩ := Option.isSome_iff_exists.mp compiled
    subst eq
    exact saved.emit safe (safe' stem' rfl) (by simpa [eq_comm] using ne) out h

theorem Saved.forM (paired : ∀ x ∈ items, x.Paired) (safe : MadeOf isSafe stem)
    (fresh : stem ∉ items.filterMap Prod.snd) (out : a.output = some dir)
    (saved : Saved a dir stem c s.tree) (h : Runs (items.forM (Cli.emitItem a)) s () s') :
    Saved a dir stem c s'.tree := by
  induction items generalizing s
  case nil =>
    have ⟨_, same⟩ := runs_pure_iff.mp h
    exact same ▸ saved
  case cons x items hi =>
    have ⟨_, s₁, here, later⟩ := runs_bind_iff.mp h
    have ne : x.2 ≠ some stem := fun eq => fresh (List.mem_filterMap.mpr ⟨x, by simp, eq⟩)
    have fresh : stem ∉ items.filterMap Prod.snd := fun mem =>
      fresh (((List.sublist_cons_self x items).filterMap _).subset mem)
    have saved := saved.emitItem (paired x List.mem_cons_self) safe ne out here
    exact hi (fun x hx => paired x (List.mem_cons_of_mem _ hx)) fresh saved later

theorem saved_of_forM (paired : ∀ x ∈ items, x.Paired) (distinct : (items.filterMap Prod.snd).Nodup)
    (out : a.output = some dir) (h : Runs (items.forM (emitItem a)) s () s') {name : String}
    (mem : ((name, .ok c), some stem) ∈ items) : Saved a dir stem c s'.tree := by
  induction items generalizing s
  case nil => simp at mem
  case cons x items hi =>
    have ⟨_, s₁, here, later⟩ := runs_bind_iff.mp h
    have rest : ∀ x ∈ items, x.Paired := fun x hx => paired x (List.mem_cons_of_mem _ hx)
    cases List.mem_cons.mp mem
    case inl eq =>
      subst eq
      have safe := (paired _ List.mem_cons_self).2 stem rfl
      have fresh : stem ∉ items.filterMap Prod.snd := (List.nodup_cons.mp distinct).1
      exact (saved_of_emit safe out here).forM rest safe fresh out later
    case inr mem =>
      exact hi rest (distinct.sublist ((List.sublist_cons_self x items).filterMap _)) later mem

theorem paired_of_mem {batch : Batch} (h : x ∈ batch.entries.zip (stems batch.outcomes)) : x.Paired := by
  have ⟨i, found⟩ := List.mem_iff_getElem?.mp h
  have ⟨entry, stem⟩ := List.getElem?_zip_eq_some.mp found
  refine ⟨?_, fun stem' eq => ?_⟩
  case refine_1 =>
    have outcome : batch.outcomes[i]? = some (x.1.1, x.1.2.toBool) := by
      simp [Batch.outcomes, entry]
    exact OutputName.isSome_of_getElem?_stems stem outcome
  case refine_2 =>
    rw [Option.mem_def.mp eq] at stem
    exact OutputName.madeOf_of_mem_stems (List.mem_of_getElem? stem)

end Loop

theorem saved_of_emitBatch {batch : Batch} {i : Nat} {name : String}
    (distinct : ((stems batch.outcomes).filterMap id).Nodup) (out : a.output = some dir)
    (h : Runs (emitBatch host a batch) s () s') (compiled : batch.entries[i]? = some (name, .ok c)) :
    ∃ stem, (stems batch.outcomes)[i]? = some (some stem) ∧ Saved a dir stem c s'.tree := by
  have lengths : (stems batch.outcomes).length = batch.entries.length := by
    rw [OutputName.length_stems, Batch.outcomes, List.length_map]
  have ⟨o, found⟩ : ∃ o, (stems batch.outcomes)[i]? = some o := by
    have ⟨lt, _⟩ := List.getElem?_eq_some_iff.mp compiled
    exact ⟨_, List.getElem?_eq_getElem (lengths ▸ lt)⟩
  have item : ((name, Except.ok c), o) ∈ batch.entries.zip (stems batch.outcomes) :=
    List.mem_of_getElem? (List.getElem?_zip_eq_some.mpr ⟨compiled, found⟩)
  have ⟨stem, eq⟩ := Option.isSome_iff_exists.mp (paired_of_mem item).1
  cases (eq : o = some stem)
  have unzipped : (batch.entries.zip (stems batch.outcomes)).filterMap Prod.snd =
      (stems batch.outcomes).filterMap id := by
    conv_rhs => rw [← List.map_snd_zip (Nat.le_of_eq lengths), List.filterMap_map]
    rfl
  exact ⟨stem, found, saved_of_forM (fun _ => paired_of_mem) (unzipped ▸ distinct) out h item⟩

theorem emitBatch_keeps_files (a : CompileArgs) (batch : Batch) :
    (((stems batch.outcomes).filterMap id).Nodup ↔ OutputName.Clear batch.outcomes) ∧
      (OutputName.Clear batch.outcomes → ∀ dir s s', a.output = some dir →
        Runs (emitBatch host a batch) s () s' → ∀ (i : Nat) name c,
          batch.entries[i]? = some (name, .ok c) →
            ∃ stem, (stems batch.outcomes)[i]? = some (some stem) ∧ Saved a dir stem c s'.tree) := by
  refine ⟨OutputName.stems_nodup_iff, fun clear dir s s' out h i name c compiled => ?_⟩
  exact saved_of_emitBatch (OutputName.stems_nodup_iff.mpr clear) out h compiled

section Batches

def oneQubit (name register : String) : Circuit :=
  ((Circuit.named name).pushQreg ⟨register, 1⟩).2

def batchOf (cs : List Circuit) : Batch :=
  Compiler.compileBatch ⟨{}, by decide +kernel⟩ (fun _ => 0) cs

def saving : CompileArgs :=
  { input := "circuits.json", output := some "out" }

-- There is a directory for the files.
def ready : Rehearsal :=
  { tree := { directories := [[], ["out"]] } }

-- The second name gets its position.
def sameName : Batch :=
  batchOf [oneQubit "x" "b", oneQubit "x" "d"]

-- What the third name becomes is the first name.
def clashing : Batch :=
  batchOf [oneQubit "x_2" "a", oneQubit "x" "b", oneQubit "x" "d"]

-- The state after a batch was saved.
def after (batch : Batch) : Rehearsal :=
  (Id.run ((emitBatch host saving batch).run.run ready)).2

theorem runs_after {batch : Batch}
    (ok : (Id.run ((emitBatch host saving batch).run.run ready)).1.toOption.isSome) :
    Runs (emitBatch host saving batch) ready () (after batch) := by
  have ⟨_, ok⟩ := Option.isSome_iff_exists.mp ok
  exact Prod.ext (toOption_eq_some_iff.mp ok) rfl

theorem exists_of_outcomes {batch : Batch} {i : Nat} {name : String}
    (h : batch.outcomes[i]? = some (name, true)) : ∃ c, batch.entries[i]? = some (name, .ok c) := by
  rw [Batch.outcomes, List.getElem?_map] at h
  have ⟨⟨_, r⟩, found, eq⟩ := Option.map_eq_some_iff.mp h
  cases r
  case error => simp [Except.toBool] at eq
  case ok c => exact ⟨c, (Prod.mk.inj eq).1 ▸ found⟩

theorem emitBatch_keeps_files_sameName : ∃ c, sameName.entries[1]? = some ("x", .ok c) ∧
    Saved saving "out" "x_1" c (after sameName).tree := by
  have ⟨c, compiled⟩ : ∃ c, sameName.entries[1]? = some ("x", .ok c) :=
    exists_of_outcomes (by decide +kernel)
  have ⟨distinct, kept⟩ := emitBatch_keeps_files saving sameName
  have ⟨stem, found, saved⟩ := kept (distinct.mp (by decide +kernel)) "out" _ _ rfl
    (runs_after (by decide +kernel)) 1 _ _ compiled
  have named : (stems sameName.outcomes)[1]? = some (some "x_1") := by decide +kernel
  cases named.symm.trans found
  exact ⟨c, compiled, saved⟩

theorem emitBatch_loses_file : ¬((stems clashing.outcomes).filterMap id).Nodup ∧
    Runs (emitBatch host saving clashing) ready () (after clashing) ∧
    ∃ c, clashing.entries[0]? = some ("x_2", .ok c) ∧
      (stems clashing.outcomes)[0]? = some (some "x_2") ∧
      ¬Saved saving "out" "x_2" c (after clashing).tree := by
  have ⟨c, compiled⟩ : ∃ c, clashing.entries[0]? = some ("x_2", .ok c) :=
    exists_of_outcomes (by decide +kernel)
  refine ⟨by decide +kernel, runs_after (by decide +kernel), c, compiled, by decide +kernel, ?_⟩
  intro saved
  have ⟨text, emitted, found⟩ := saved.program
  have own : (clashing.entries[0]?.bind fun e => e.2.toOption.bind fun c => c.qasm.toOption) =
      some "OPENQASM 2.0;\ninclude \"qelib1.inc\";\nqreg a[1];\n" := by
    decide +kernel
  have left : (after clashing).tree.read (join "out" ("x_2" ++ ".qasm")) =
      .text "OPENQASM 2.0;\ninclude \"qelib1.inc\";\nqreg d[1];\n" := by
    decide +kernel
  rw [compiled, Option.bind_some] at own
  simp only [Except.toOption, emitted, Option.bind_some, Option.some.injEq] at own
  rw [left, own] at found
  simp at found

end Batches

end Cli

end CircuitRouting
