import Aicortex.Lib.Tables
import Aicortex.Lib.StaleRuns

/-!
Parts of a store. The rows of a part keep to it: an update within the part commutes with
taking the part, one outside leaves the part as it was, and a row that a table accepts the
part of the table accepts. A step is confined when the part goes its own way; a run then
leaves on the part what the steps of the part alone would have made of it.
-/

namespace Lib.Parts
open Lib.Tables Lib.Outcome Lib.StaleRuns

variable {ρ κ ε σ μ τ α : Type}

/-! ### Parts of a table -/

section
variable {part selected : ρ → Bool} {change : ρ → ρ} {rows : List ρ}

/-- An update within a table is one within its part. -/
theorem filter_updateWhere (kept : ∀ row, selected row = true → part (change row) = part row) (rows : List ρ) :
    (updateWhere selected change rows).filter part = updateWhere selected change (rows.filter part) := by
  induction rows with
  | nil => rfl
  | cons row rest ih =>
    unfold updateWhere at ih ⊢
    rw [List.map_cons,List.filter_cons,List.filter_cons,ih]
    by_cases chosen : selected row = true
    · simp only [chosen,if_true,kept row chosen]
      split_ifs <;> simp [chosen]
    · simp only [chosen,Bool.false_eq_true,if_false]
      split_ifs <;> simp [chosen]

/-- An update of other rows leaves the part. -/
theorem filter_updateWhere_apart (apart : ∀ row, selected row = true → part row = false ∧ part (change row) = false)
    (rows : List ρ) : (updateWhere selected change rows).filter part = rows.filter part := by
  rw [filter_updateWhere fun row chosen => by rw [(apart row chosen).1,(apart row chosen).2]]
  refine (List.map_congr_left fun row member => ?_).trans (List.map_id _)
  have inside := (List.mem_filter.mp member).2
  split_ifs with chosen
  · rw [(apart row chosen).1] at inside
    cases inside
  · rfl

theorem filter_deleteWhere (rows : List ρ) : (deleteWhere selected rows).filter part = deleteWhere selected (rows.filter part) := by
  simp only [deleteWhere,List.filter_filter]
  exact List.filter_congr fun row _ => Bool.and_comm _ _

/-- What is selected within a part is selected in the whole. -/
theorem filter_filter_within (within : ∀ row, selected row = true → part row = true) (rows : List ρ) :
    (rows.filter part).filter selected = rows.filter selected := by
  rw [List.filter_filter]
  refine List.filter_congr fun row _ => ?_
  cases chosen : selected row with
  | false => rfl
  | true => simp [within row chosen]

theorem any_filter_within (within : ∀ row, selected row = true → part row = true) (rows : List ρ) :
    (rows.filter part).any selected = rows.any selected := by
  rw [List.any_filter]
  refine List.any_congr rfl fun row => ?_
  cases chosen : selected row with
  | false => simp
  | true => simp [within row chosen]

theorem find?_filter_within (within : ∀ row, selected row = true → part row = true) (rows : List ρ) :
    (rows.filter part).find? selected = rows.find? selected := by
  rw [List.find?_filter]
  refine congrArg (fun test => rows.find? test) (funext fun row => ?_)
  cases chosen : selected row with
  | false => simp
  | true => simp [within row chosen]

theorem countP_filter_within (within : ∀ row, selected row = true → part row = true) (rows : List ρ) :
    (rows.filter part).countP selected = rows.countP selected := by
  rw [List.countP_eq_length_filter,List.countP_eq_length_filter,filter_filter_within within]

/-- A row that is accepted into a table is accepted into a part of it. -/
theorem insertRow_filter [DecidableEq κ] {key : ρ → κ} {refusal : ε} {row : ρ} {next : List ρ}
    (inserted : insertRow key refusal row rows = .ok next) (inside : part row = true) :
    insertRow key refusal row (rows.filter part) = .ok (next.filter part) := by
  obtain ⟨free,rfl⟩ := insertRow_ok.mp inserted
  refine insertRow_ok.mpr ⟨fun other member => free other (List.mem_filter.mp member).1,?_⟩
  rw [List.filter_append,List.filter_cons_of_pos inside]
  rfl

/-- A row of another part leaves this one. -/
theorem insertRow_filter_apart [DecidableEq κ] {key : ρ → κ} {refusal : ε} {row : ρ} {next : List ρ}
    (inserted : insertRow key refusal row rows = .ok next) (outside : part row = false) :
    next.filter part = rows.filter part := by
  obtain ⟨-,rfl⟩ := insertRow_ok.mp inserted
  rw [List.filter_append,List.filter_cons_of_neg (by simp [outside])]
  simp

end

/-! ### Confined steps -/

/-- A change of a part goes on it as on the whole, and any other leaves it as it was. -/
structure Local (only : σ → σ) (mine : Bool) (change : σ → σ) : Prop where
  inside : mine = true → ∀ now, only (change now) = change (only now)
  outside : mine = false → ∀ now, only (change now) = only now

/-- The same of a step that may be refused: what a part has less of refuses nothing. -/
structure Confined (only : σ → σ) (mine : Bool) (step : σ → Except ε σ) : Prop where
  inside : mine = true → ∀ now next, step now = .ok next → step (only now) = .ok (only next)
  outside : mine = false → ∀ now next, step now = .ok next → only next = only now

section
variable {only : σ → σ} {mine : Bool} {first second change : σ → σ} {step later : σ → Except ε σ}

theorem Local.still : Local only mine (fun now => now) := ⟨fun _ _ => rfl,fun _ _ => rfl⟩

theorem Local.comp (one : Local only mine first) (two : Local only mine second) :
    Local only mine (fun now => second (first now)) := by
  refine ⟨fun is now => ?_,fun is now => ?_⟩
  · rw [two.inside is,one.inside is]
  · rw [two.outside is,one.outside is]

theorem Local.foldl {change : σ → α → σ} {items : List α} (each : ∀ item ∈ items, Local only mine (fun now => change now item)) :
    Local only mine (fun now => items.foldl change now) := by
  induction items with
  | nil => exact .still
  | cons item rest ih =>
    exact (each item List.mem_cons_self).comp (ih fun other member => each other (List.mem_cons_of_mem _ member))

theorem Local.confined (change' : Local only mine change) : Confined only mine (fun now => (.ok (change now) : Except ε σ)) := by
  refine ⟨fun is now next executed => ?_,fun is now next executed => ?_⟩
  · cases executed
    rw [change'.inside is]
  · cases executed
    exact change'.outside is now

theorem Confined.bind (one : Confined only mine step) (two : Confined only mine later) :
    Confined only mine (fun now => step now >>= later) := by
  refine ⟨fun is now next executed => ?_,fun is now next executed => ?_⟩
  · obtain ⟨mid,made,rest⟩ := bind_ok_iff.mp executed
    exact bind_ok_iff.mpr ⟨only mid,one.inside is now mid made,two.inside is mid next rest⟩
  · obtain ⟨mid,made,rest⟩ := bind_ok_iff.mp executed
    exact (two.outside is mid next rest).trans (one.outside is now mid made)

/-- A change before a step. -/
theorem Local.then' (one : Local only mine change) (two : Confined only mine step) :
    Confined only mine (fun now => step (change now)) := one.confined.bind two

theorem Confined.refused (refusal : ε) : Confined only mine (fun _ => .error refusal) := by
  constructor <;> intro _ _ _ executed <;> cases executed

/-- A loop whose steps are confined is. -/
theorem Confined.foldlM {step : σ → α → Except ε σ} {items : List α}
    (each : ∀ item ∈ items, Confined only mine (fun now => step now item)) :
    Confined only mine (fun now => items.foldlM step now) := by
  induction items with
  | nil => exact Local.still.confined
  | cons item rest ih =>
    have later := (each item List.mem_cons_self).bind (ih fun other member => each other (List.mem_cons_of_mem _ member))
    simpa only [List.foldlM_cons] using later

/-- A guard that passes on the whole passes on the part. -/
theorem Confined.guarded (blocked : σ → Bool) {refusal : ε}
    (fewer : mine = true → ∀ now, blocked now = false → blocked (only now) = false) (confined : Confined only mine step) :
    Confined only mine (fun now => if blocked now then .error refusal else step now) := by
  refine ⟨fun is now next executed => ?_,fun is now next executed => ?_⟩
  · split_ifs at executed with stopped
    rw [if_neg (by simp [fewer is now (Bool.eq_false_iff.mpr stopped)])]
    exact confined.inside is now next executed
  · split_ifs at executed
    exact confined.outside is now next executed

theorem Confined.allowed (passed : σ → Bool) {refusal : ε}
    (more : mine = true → ∀ now, passed now = true → passed (only now) = true) (confined : Confined only mine step) :
    Confined only mine (fun now => if passed now then step now else .error refusal) := by
  refine ⟨fun is now next executed => ?_,fun is now next executed => ?_⟩
  · split_ifs at executed with yes
    rw [if_pos (more is now yes)]
    exact confined.inside is now next executed
  · split_ifs at executed
    exact confined.outside is now next executed

/-- How one step went, where only what it met is known to go so. -/
structure Went (only : σ → σ) (mine : Bool) (step : σ → Except ε σ) (now next : σ) : Prop where
  inside : mine = true → step (only now) = .ok (only next)
  outside : mine = false → only next = only now

theorem Confined.went (confined : Confined only mine step) {now next : σ} (executed : step now = .ok next) :
    Went only mine step now next := ⟨fun is => confined.inside is now next executed,fun is => confined.outside is now next executed⟩

theorem Went.bind {now mid next : σ} (one : Went only mine step now mid) (two : Went only mine later mid next) :
    Went only mine (fun now => step now >>= later) now next :=
  ⟨fun is => bind_ok_iff.mpr ⟨_,one.inside is,two.inside is⟩,fun is => (two.outside is).trans (one.outside is)⟩

/-- A step of one component of a store. -/
theorem Confined.lift {part : α → α} {step : α → Except ε α} (confined : Confined part mine step) (view : σ → α)
    (put : σ → α → σ) (view_only : ∀ state, view (only state) = part (view state))
    (only_put : ∀ state value, only (put state value) = put (only state) (part value))
    (put_view : ∀ state, put state (view state) = state) :
    Confined only mine (fun state => step (view state) >>= fun value => .ok (put state value)) := by
  refine ⟨fun is now next executed => ?_,fun is now next executed => ?_⟩
  · obtain ⟨value,stepped,rest⟩ := bind_ok_iff.mp executed
    cases rest
    rw [view_only,only_put]
    exact bind_ok_iff.mpr ⟨_,confined.inside is _ _ stepped,rfl⟩
  · obtain ⟨value,stepped,rest⟩ := bind_ok_iff.mp executed
    cases rest
    rw [only_put,confined.outside is _ _ stepped,← view_only,put_view]

end

/-! ### Tables whose rows have owners -/

/-- A table of a store: the part holds the rows of the owners that are kept. -/
structure Table {ο : Type} (only : σ → σ) (keep : ο → Bool) (read : σ → List ρ) (write : σ → List ρ → σ) (owner : ρ → ο) :
    Prop where
  read_only : ∀ state, read (only state) = (read state).filter (fun row => keep (owner row))
  only_write : ∀ state rows, only (write state rows) = write (only state) (rows.filter (fun row => keep (owner row)))
  write_read : ∀ state, write state (read state) = state

namespace Table
variable {ο : Type} {only : σ → σ} {keep : ο → Bool} {read : σ → List ρ} {write : σ → List ρ → σ} {owner : ρ → ο}
variable (table : Table only keep read write owner) {whose : ο}
include table

/-- A table that is left as the part has it leaves the part. -/
theorem only_write_same {state : σ} {rows : List ρ}
    (same : rows.filter (fun row => keep (owner row)) = (read state).filter (fun row => keep (owner row))) :
    only (write state rows) = only state := by
  rw [table.only_write,same,← table.read_only,table.write_read]

/-- What names an owner that is kept selects rows of the part. -/
theorem any_only {selected : ρ → Bool} (named : ∀ row, selected row = true → owner row = whose) (mine : keep whose = true)
    (state : σ) : (read (only state)).any selected = (read state).any selected := by
  rw [table.read_only]
  exact any_filter_within (fun row chosen => by rw [named row chosen,mine]) _

theorem find?_only {selected : ρ → Bool} (named : ∀ row, selected row = true → owner row = whose) (mine : keep whose = true)
    (state : σ) : (read (only state)).find? selected = (read state).find? selected := by
  rw [table.read_only]
  exact find?_filter_within (fun row chosen => by rw [named row chosen,mine]) _

theorem filter_only {selected : ρ → Bool} (named : ∀ row, selected row = true → owner row = whose) (mine : keep whose = true)
    (state : σ) : (read (only state)).filter selected = (read state).filter selected := by
  rw [table.read_only]
  exact filter_filter_within (fun row chosen => by rw [named row chosen,mine]) _

theorem countP_only {selected : ρ → Bool} (named : ∀ row, selected row = true → owner row = whose) (mine : keep whose = true)
    (state : σ) : (read (only state)).countP selected = (read state).countP selected := by
  rw [table.read_only]
  exact countP_filter_within (fun row chosen => by rw [named row chosen,mine]) _

/-- What a table has none of, its part has none of. -/
theorem any_only_false {selected : ρ → Bool} {state : σ} (none' : (read state).any selected = false) :
    (read (only state)).any selected = false := by
  rw [table.read_only]
  exact List.any_eq_false.mpr fun row member => List.any_eq_false.mp none' row (List.mem_filter.mp member).1

/-- An update of the rows of one owner is local; what else it looks at may be of the same
    owner. -/
theorem update_local (selected : σ → ρ → Bool) (change : ρ → ρ)
    (named : ∀ state row, selected state row = true → owner row = whose) (same : ∀ row, owner (change row) = owner row)
    (alike : keep whose = true → ∀ state row, selected (only state) row = selected state row) :
    Local only (keep whose) (fun state => write state (updateWhere (selected state) change (read state))) := by
  refine ⟨fun mine state => ?_,fun other state => ?_⟩
  · rw [table.only_write,table.read_only,filter_updateWhere fun row _ => by rw [same],funext (alike mine state)]
  · refine table.only_write_same (filter_updateWhere_apart (fun row chosen => ?_) _)
    rw [same,named state row chosen]
    exact ⟨other,other⟩

theorem delete_local (selected : ρ → Bool) (named : ∀ row, selected row = true → owner row = whose) :
    Local only (keep whose) (fun state => write state (deleteWhere selected (read state))) := by
  refine ⟨fun mine state => ?_,fun other state => ?_⟩
  · rw [table.only_write,table.read_only,filter_deleteWhere]
  · refine table.only_write_same (filter_deleteWhere_apart fun row _ kept => Bool.eq_false_iff.mpr fun chosen => ?_)
    rw [named row chosen,other] at kept
    cases kept

theorem insert_confined [DecidableEq κ] (key : ρ → κ) (refusal : ε) (row : ρ) :
    Confined only (keep (owner row)) (fun state => insertRow key refusal row (read state) >>= fun rows => .ok (write state rows)) := by
  refine ⟨fun mine state next executed => ?_,fun other state next executed => ?_⟩
  · obtain ⟨rows,inserted,rest⟩ := bind_ok_iff.mp executed
    cases rest
    rw [table.read_only,table.only_write]
    exact bind_ok_iff.mpr ⟨_,insertRow_filter inserted mine,rfl⟩
  · obtain ⟨rows,inserted,rest⟩ := bind_ok_iff.mp executed
    cases rest
    exact table.only_write_same (insertRow_filter_apart inserted other)

end Table

/-! ### Histories of a part -/

/-- The states of a part, less those that left it as it was. -/
inductive Thinned (only : σ → σ) : List σ → List σ → Prop
  | start (state : σ) : Thinned only [state] [only state]
  | kept {history thin : List σ} (state : σ) (rest : Thinned only history thin) :
      Thinned only (state :: history) (only state :: thin)
  | same {history older : List σ} (state : σ) (rest : Thinned only history (only state :: older)) :
      Thinned only (state :: history) (only state :: older)

namespace Thinned
variable {only : σ → σ} {history thin : List σ}

theorem mem (thinned : Thinned only history thin) {seen : σ} (member : seen ∈ history) : only seen ∈ thin := by
  induction thinned with
  | start state => rw [List.mem_singleton.mp member]; exact List.mem_singleton_self _
  | kept state rest ih =>
    rcases List.mem_cons.mp member with rfl | inside
    · exact List.mem_cons_self
    · exact List.mem_cons_of_mem _ (ih inside)
  | same state rest ih =>
    rcases List.mem_cons.mp member with rfl | inside
    · exact List.mem_cons_self
    · exact ih inside

theorem head (thinned : Thinned only history thin) {state : σ} {older : List σ} (is : history = state :: older) :
    ∃ rest, thin = only state :: rest := by
  cases thinned with
  | start other => cases is; exact ⟨_,rfl⟩
  | kept other rest => cases is; exact ⟨_,rfl⟩
  | same other rest => cases is; exact ⟨_,rfl⟩

/-- Reads in order are reads in order of the part. -/
theorem inOrder (thinned : Thinned only history thin) {first second : σ} (order : System.InOrder history first second) :
    System.InOrder thin (only first) (only second) := by
  induction thinned with
  | start state =>
    rw [List.mem_singleton.mp order.mem_first,List.mem_singleton.mp order.mem_second]
    exact ⟨[],[],rfl,List.mem_singleton_self _⟩
  | @kept history thin state rest ih =>
    obtain ⟨recent,older,is,within⟩ := order
    cases recent with
    | nil =>
      cases is
      rw [List.mem_singleton.mp within]
      exact ⟨[],thin,rfl,List.mem_singleton_self _⟩
    | cons latest recent =>
      obtain ⟨rfl,rfl⟩ := List.cons.inj is
      rcases List.mem_cons.mp within with rfl | later
      · obtain ⟨newer,earlier,split⟩ := List.append_of_mem (rest.mem (show first ∈ recent ++ first :: older by simp))
        exact ⟨only second :: newer,earlier,by rw [split]; rfl,by simp⟩
      · exact (ih ⟨recent,older,rfl,later⟩).later [_]
  | @same history earlier state rest ih =>
    obtain ⟨recent,older,is,within⟩ := order
    cases recent with
    | nil =>
      cases is
      rw [List.mem_singleton.mp within]
      exact ⟨[],earlier,rfl,List.mem_singleton_self _⟩
    | cons latest recent =>
      obtain ⟨rfl,rfl⟩ := List.cons.inj is
      rcases List.mem_cons.mp within with rfl | later
      · -- the latest state of the part is the second read
        obtain ⟨newer,past,split⟩ := List.append_of_mem (rest.mem (show first ∈ recent ++ first :: older by simp))
        cases newer with
        | nil =>
          obtain ⟨same,-⟩ := List.cons.inj split
          exact ⟨[],past,split,by rw [same]; exact List.mem_singleton_self _⟩
        | cons found newer =>
          obtain ⟨rfl,-⟩ := List.cons.inj split
          exact ⟨only second :: newer,past,split,by simp⟩
      · exact ih ⟨recent,older,rfl,later⟩

end Thinned

/-- The log of a part: the entries of it, each as the part saw it. -/
def alone (system : System σ μ τ ε) (only : σ → σ) (mine : τ → Bool) (seen : σ → τ → τ) : List (τ × σ) → List (τ × σ)
  | [] => []
  | (txn,next) :: log =>
    if mine txn then (seen (system.current log) txn,only next) :: alone system only mine seen log
    else alone system only mine seen log

/-- Run rule: where every transaction of a part could have been staged on the part alone,
    and commits there what it commits on the whole, and every other leaves the part, the log
    of the part is a run of the system and leads to the part. -/
theorem alone_run {system : System σ μ τ ε} {only : σ → σ} {mine : τ → Bool} {seen : σ → τ → τ} {log : List (τ × σ)}
    (run : System.Run system (fun _ _ => True) log) (initial : only system.start = system.start)
    (stays : ∀ log txn next, System.Run system (fun _ _ => True) log → system.Stages (system.states log) txn →
      system.commit (system.current log) txn = .ok next → mine txn = false → only next = only (system.current log))
    (goes : ∀ log txn next thin, System.Run system (fun _ _ => True) log → system.Stages (system.states log) txn →
      system.commit (system.current log) txn = .ok next → mine txn = true → Thinned only (system.states log) thin →
      system.Stages thin (seen (system.current log) txn) ∧
        system.commit (only (system.current log)) (seen (system.current log) txn) = .ok (only next)) :
    System.Run system (fun _ _ => True) (alone system only mine seen log) ∧
      system.current (alone system only mine seen log) = only (system.current log) ∧
      Thinned only (system.states log) (system.states (alone system only mine seen log)) := by
  induction run with
  | start =>
    refine ⟨.start,initial.symm,?_⟩
    have first : Thinned only [system.start] [only system.start] := .start system.start
    rw [initial] at first
    exact first
  | @step log txn next run staged meet committed ih =>
    obtain ⟨run',current,thinned⟩ := ih
    cases own : mine txn with
    | true =>
      obtain ⟨staged',committed'⟩ := goes log txn next _ run staged committed own thinned
      rw [← current] at committed'
      simp only [alone,own,if_true]
      exact ⟨run'.step staged' (System.meetAll_of_forall (fun _ _ _ => trivial) _) committed',rfl,.kept next thinned⟩
    | false =>
      have still := stays log txn next run staged committed own
      simp only [alone,own,Bool.false_eq_true,if_false]
      refine ⟨run',current.trans still.symm,?_⟩
      obtain ⟨older,is⟩ : ∃ older, system.states (alone system only mine seen log) = only next :: older := by
        obtain ⟨past,there⟩ : ∃ past, system.states log = system.current log :: past := by
          cases log with
          | nil => exact ⟨[],rfl⟩
          | cons entry rest => exact ⟨_,rfl⟩
        obtain ⟨older,is⟩ := thinned.head there
        exact ⟨older,by rw [is,still]⟩
      have states : system.states ((txn,next) :: log) = next :: system.states log := rfl
      rw [states,is]
      rw [is] at thinned
      exact .same next thinned

end Lib.Parts
