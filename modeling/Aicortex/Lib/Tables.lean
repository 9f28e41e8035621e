import Mathlib.Data.List.Basic
import Mathlib.Data.List.Nodup
import Mathlib.Tactic.SplitIfs

/-!
Tables as lists of rows in insertion order. A unique key refuses the insert of a
second row under it; an update and a delete act on the rows a condition selects.
-/

namespace Lib.Tables

variable {ρ κ ε : Type}

/-- Insert under a unique key; a row already under it is a refusal. -/
def insertRow [DecidableEq κ] (key : ρ → κ) (refusal : ε) (row : ρ) (rows : List ρ) : Except ε (List ρ) :=
  if rows.any (fun other => decide (key other = key row)) then .error refusal else .ok (rows ++ [row])

def updateWhere (selected : ρ → Bool) (change : ρ → ρ) (rows : List ρ) : List ρ :=
  rows.map (fun row => if selected row then change row else row)

def deleteWhere (selected : ρ → Bool) (rows : List ρ) : List ρ := rows.filter (fun row => !selected row)

/-- No two rows share a key. -/
def UniqueBy (key : ρ → κ) (rows : List ρ) : Prop := (rows.map key).Nodup

theorem insertRow_ok [DecidableEq κ] {key : ρ → κ} {refusal : ε} {row : ρ} {rows next : List ρ} :
    insertRow key refusal row rows = .ok next ↔ (∀ other ∈ rows, key other ≠ key row) ∧ next = rows ++ [row] := by
  unfold insertRow
  by_cases taken : rows.any (fun other => decide (key other = key row)) = true
  · obtain ⟨other,member,same⟩ := List.any_eq_true.mp taken
    simp only [taken,if_true,reduceCtorEq,false_iff]
    rintro ⟨free,-⟩
    exact free other member (by simpa using same)
  · simp only [taken,Bool.false_eq_true,if_false,Except.ok.injEq]
    constructor
    · intro appended
      refine ⟨?_,appended.symm⟩
      intro other member same
      exact taken (List.any_eq_true.mpr ⟨other,member,by simpa using same⟩)
    · rintro ⟨-,rfl⟩
      rfl

theorem UniqueBy.insert {key : ρ → κ} {rows : List ρ} {row : ρ} (unique : UniqueBy key rows)
    (free : ∀ other ∈ rows, key other ≠ key row) : UniqueBy key (rows ++ [row]) := by
  unfold UniqueBy at *
  rw [List.map_append,List.map_singleton]
  refine List.nodup_append.mpr ⟨unique,by simp,?_⟩
  intro taken member fresh single
  obtain ⟨other,otherIn,rfl⟩ := List.mem_map.mp member
  rw [List.mem_singleton.mp single]
  exact free other otherIn

/-! ### Filling one table of a store -/

section
variable {σ : Type} [DecidableEq κ]

/-- A step that inserts a row into the table a store is read and written at. -/
structure Fills (step : σ → ρ → Except ε σ) (key : ρ → κ) (refusal : ε) (read : σ → List ρ)
    (write : σ → List ρ → σ) : Prop where
  step_eq : ∀ db row, step db row = (insertRow key refusal row (read db)).map (write db)
  read_write : ∀ db rows, read (write db rows) = rows
  write_write : ∀ db first second, write (write db first) second = write db second
  write_read : ∀ db, write db (read db) = db

variable {step : σ → ρ → Except ε σ} {key : ρ → κ} {refusal : ε} {read : σ → List ρ} {write : σ → List ρ → σ}

theorem Fills.step_ok_iff (fills : Fills step key refusal read write) {db next : σ} {row : ρ} :
    step db row = .ok next ↔ (∀ other ∈ read db, key other ≠ key row) ∧ next = write db (read db ++ [row]) := by
  rw [fills.step_eq]
  cases inserted : insertRow key refusal row (read db) with
  | error refused =>
    refine iff_of_false (by simp [Except.map]) ?_
    rintro ⟨free,-⟩
    rw [insertRow_ok.mpr ⟨free,rfl⟩] at inserted
    cases inserted
  | ok rows =>
    obtain ⟨free,rfl⟩ := insertRow_ok.mp inserted
    constructor
    · intro made
      exact ⟨free,(Except.ok.inj made).symm⟩
    · rintro ⟨-,rfl⟩
      rfl

/-- Rows are inserted when they differ in their keys from each other and from what is there. -/
theorem Fills.run_ok_iff (fills : Fills step key refusal read write) {rows : List ρ} {db next : σ} :
    rows.foldlM step db = .ok next ↔
      UniqueBy key rows ∧ (∀ row ∈ rows, ∀ other ∈ read db, key other ≠ key row) ∧ next = write db (read db ++ rows) := by
  induction rows generalizing db with
  | nil => simp [pure,Except.pure,UniqueBy,fills.write_read,eq_comm]
  | cons row rest ih =>
    rw [List.foldlM_cons]
    constructor
    · intro executed
      cases stepped : step db row with
      | error refused =>
        rw [stepped] at executed
        cases executed
      | ok mid =>
        rw [stepped] at executed
        obtain ⟨free,rfl⟩ := fills.step_ok_iff.mp stepped
        obtain ⟨unique,others,final⟩ := ih.mp executed
        simp only [fills.read_write,List.mem_append,List.mem_singleton] at others
        refine ⟨List.nodup_cons.mpr ⟨?_,unique⟩,?_,?_⟩
        · intro again
          obtain ⟨other,otherIn,same⟩ := List.mem_map.mp again
          exact others other otherIn row (.inr rfl) same.symm
        · intro other otherIn held heldIn
          rcases List.mem_cons.mp otherIn with rfl | later
          · exact free held heldIn
          · exact others other later held (.inl heldIn)
        · rw [final,fills.read_write,fills.write_write,List.append_assoc,List.singleton_append]
    · rintro ⟨unique,free,rfl⟩
      obtain ⟨apart,unique⟩ := List.nodup_cons.mp unique
      have stepped := fills.step_ok_iff.mpr ⟨free row List.mem_cons_self,rfl⟩
      rw [stepped]
      refine ih.mpr ⟨unique,?_,?_⟩
      · intro other otherIn held heldIn
        rw [fills.read_write] at heldIn
        rcases List.mem_append.mp heldIn with old | added
        · exact free other (List.mem_cons_of_mem _ otherIn) held old
        · obtain rfl := List.mem_singleton.mp added
          exact fun same => apart (same ▸ List.mem_map_of_mem otherIn)
      · rw [fills.read_write,fills.write_write,List.append_assoc,List.singleton_append]

theorem Fills.run_ok (fills : Fills step key refusal read write) {rows : List ρ} {db : σ} (unique : UniqueBy key rows)
    (free : ∀ row ∈ rows, ∀ other ∈ read db, key other ≠ key row) :
    rows.foldlM step db = .ok (write db (read db ++ rows)) :=
  fills.run_ok_iff.mpr ⟨unique,free,rfl⟩

end

theorem map_updateWhere {key : ρ → κ} (selected : ρ → Bool) {change : ρ → ρ} (kept : ∀ row, key (change row) = key row)
    (rows : List ρ) : (updateWhere selected change rows).map key = rows.map key := by
  unfold updateWhere
  rw [List.map_map]
  refine List.map_congr_left fun row _ => ?_
  simp only [Function.comp]
  split_ifs
  · exact kept row
  · rfl

theorem UniqueBy.update {key : ρ → κ} {rows : List ρ} (unique : UniqueBy key rows) (selected : ρ → Bool) {change : ρ → ρ}
    (kept : ∀ row, key (change row) = key row) : UniqueBy key (updateWhere selected change rows) := by
  unfold UniqueBy
  rw [map_updateWhere selected kept]
  exact unique

theorem UniqueBy.delete {key : ρ → κ} {rows : List ρ} (unique : UniqueBy key rows) (selected : ρ → Bool) :
    UniqueBy key (deleteWhere selected rows) :=
  List.Nodup.sublist (List.filter_sublist.map key) unique

theorem UniqueBy.eq_of_key {key : ρ → κ} {rows : List ρ} (unique : UniqueBy key rows) {left right : ρ}
    (leftIn : left ∈ rows) (rightIn : right ∈ rows) (same : key left = key right) : left = right :=
  List.inj_on_of_nodup_map unique leftIn rightIn same

/-- What a condition on the key of one row selects is that row. -/
theorem UniqueBy.filter_eq {key : ρ → κ} {rows : List ρ} (unique : UniqueBy key rows) {selected : ρ → Bool} {row : ρ}
    (member : row ∈ rows) (chosen : selected row = true)
    (only : ∀ other ∈ rows, selected other = true → key other = key row) : rows.filter selected = [row] := by
  refine List.perm_singleton.mp ((List.perm_ext_iff_of_nodup ?_ (List.nodup_singleton row)).mpr fun other => ?_)
  · exact (List.Nodup.of_map key unique).filter selected
  · rw [List.mem_filter,List.mem_singleton]
    constructor
    · rintro ⟨otherIn,otherChosen⟩
      exact unique.eq_of_key otherIn member (only other otherIn otherChosen)
    · rintro rfl
      exact ⟨member,chosen⟩

theorem mem_updateWhere {selected : ρ → Bool} {change : ρ → ρ} {rows : List ρ} {row : ρ} :
    row ∈ updateWhere selected change rows ↔
      (row ∈ rows ∧ selected row = false) ∨ ∃ old ∈ rows, selected old = true ∧ change old = row := by
  simp only [updateWhere,List.mem_map]
  constructor
  · rintro ⟨old,member,rfl⟩
    cases chosen : selected old with
    | true => exact .inr ⟨old,member,chosen,by simp⟩
    | false => exact .inl (by simp [member,chosen])
  · rintro (⟨member,skipped⟩ | ⟨old,member,chosen,rfl⟩)
    · exact ⟨row,member,by simp [skipped]⟩
    · exact ⟨old,member,by simp [chosen]⟩

/-- What holds of every row and is kept by the change holds after the update. -/
theorem updateWhere_all {P : ρ → Prop} {selected : ρ → Bool} {change : ρ → ρ} {rows : List ρ} (all : ∀ row ∈ rows, P row)
    (kept : ∀ row ∈ rows, selected row = true → P (change row)) : ∀ row ∈ updateWhere selected change rows, P row := by
  intro row member
  rcases mem_updateWhere.mp member with ⟨old,-⟩ | ⟨old,inside,chosen,rfl⟩
  · exact all row old
  · exact kept old inside chosen

/-- An update that keeps the key of a row keeps a row under it. -/
theorem updateWhere_stays {key : ρ → κ} {selected : ρ → Bool} {change : ρ → ρ} {rows : List ρ}
    (kept : ∀ row ∈ rows, selected row = true → key (change row) = key row) {row : ρ} (member : row ∈ rows) :
    ∃ later ∈ updateWhere selected change rows, key later = key row := by
  by_cases chosen : selected row = true
  · exact ⟨change row,mem_updateWhere.mpr (.inr ⟨row,member,chosen,rfl⟩),kept row member chosen⟩
  · exact ⟨row,mem_updateWhere.mpr (.inl ⟨member,Bool.eq_false_iff.mpr chosen⟩),rfl⟩

/-- An update that selects only the latest row changes that row. -/
theorem updateWhere_latest {selected : ρ → Bool} (change : ρ → ρ) {rows : List ρ} {row : ρ}
    (others : ∀ other ∈ rows, selected other = false) (own : selected row = true) :
    updateWhere selected change (rows ++ [row]) = rows ++ [change row] := by
  have same : updateWhere selected change rows = rows := by
    refine (List.map_congr_left fun other member => ?_).trans (List.map_id rows)
    simp [others other member]
  simp only [updateWhere] at same ⊢
  rw [List.map_append,same]
  simp [own]

@[simp] theorem mem_deleteWhere {selected : ρ → Bool} {rows : List ρ} {row : ρ} :
    row ∈ deleteWhere selected rows ↔ row ∈ rows ∧ selected row = false := by
  simp [deleteWhere]

/-- A deletion leaves a part of the table that it does not touch. -/
theorem filter_deleteWhere_apart {selected part : ρ → Bool} {rows : List ρ}
    (apart : ∀ row ∈ rows, part row = true → selected row = false) :
    (deleteWhere selected rows).filter part = rows.filter part := by
  rw [deleteWhere,List.filter_filter]
  refine List.filter_congr fun row member => ?_
  by_cases inside : part row = true
  · rw [inside,apart row member inside]
    rfl
  · rw [Bool.eq_false_iff.mpr inside,Bool.false_and]

/-- Nothing is left of a part of the table that is deleted whole. -/
theorem filter_deleteWhere_gone {selected part : ρ → Bool} {rows : List ρ}
    (gone : ∀ row ∈ rows, part row = true → selected row = true) : (deleteWhere selected rows).filter part = [] := by
  refine List.filter_eq_nil_iff.mpr fun row member inside => ?_
  obtain ⟨there,left⟩ := mem_deleteWhere.mp member
  rw [gone row there inside] at left
  cases left

/-- Deletes one after the other are one delete of what any of them selects. -/
theorem foldl_deleteWhere {ι : Type} (chosen : ι → ρ → Bool) (items : List ι) (rows : List ρ) :
    items.foldl (fun rows item => deleteWhere (chosen item) rows) rows =
      deleteWhere (fun row => items.any (fun item => chosen item row)) rows := by
  induction items generalizing rows with
  | nil => exact (List.filter_true rows).symm
  | cons item rest ih =>
    rw [List.foldl_cons,ih]
    simp only [deleteWhere,List.filter_filter]
    exact congrArg (fun test => rows.filter test) (funext fun row => by simp [Bool.and_comm])

/-- A row that is accepted as part of a table of rows is accepted as part of a table of
    what is seen of them. -/
theorem insertRow_map [DecidableEq κ] {τ : Type} {view : ρ → τ} {key : ρ → κ} {seen : τ → κ} {refusal : ε} {row : ρ}
    {rows next : List ρ} (same : ∀ row, seen (view row) = key row) (inserted : insertRow key refusal row rows = .ok next) :
    insertRow seen refusal (view row) (rows.map view) = .ok (next.map view) := by
  obtain ⟨free,rfl⟩ := insertRow_ok.mp inserted
  refine insertRow_ok.mpr ⟨?_,by simp⟩
  intro other member
  obtain ⟨old,oldIn,rfl⟩ := List.mem_map.mp member
  rw [same,same]
  exact free old oldIn

/-- What is seen of an updated table is what is seen of the table, updated. -/
theorem map_updateWhere_view {τ : Type} {view : ρ → τ} {selected : ρ → Bool} {chosen : τ → Bool} {change : ρ → ρ}
    {further : τ → τ} (alike : ∀ row, selected row = chosen (view row)) (same : ∀ row, view (change row) = further (view row))
    (rows : List ρ) : (updateWhere selected change rows).map view = updateWhere chosen further (rows.map view) := by
  simp only [updateWhere,List.map_map]
  refine List.map_congr_left fun row _ => ?_
  simp only [Function.comp,alike]
  split_ifs
  · exact same row
  · rfl

/-- A deletion takes as many rows as it selects. -/
theorem length_deleteWhere (selected : ρ → Bool) (rows : List ρ) :
    rows.length = (deleteWhere selected rows).length + rows.countP selected := by
  rw [deleteWhere,← List.countP_eq_length_filter,List.length_eq_countP_add_countP selected,Nat.add_comm]
  congr 1
  refine List.countP_congr fun row _ => ?_
  simp

/-- An update that takes every row it selects out of a part leaves that many fewer in it. -/
theorem countP_updateWhere_out {selected part : ρ → Bool} {change : ρ → ρ} (rows : List ρ)
    (within : ∀ row, selected row = true → part row = true ∧ part (change row) = false) :
    rows.countP part = (updateWhere selected change rows).countP part + rows.countP selected := by
  induction rows with
  | nil => rfl
  | cons row rest ih =>
    unfold updateWhere at ih ⊢
    rw [List.map_cons,List.countP_cons,List.countP_cons,List.countP_cons,ih]
    by_cases chosen : selected row = true
    · obtain ⟨was,is⟩ := within row chosen
      simp [chosen,was,is]
      omega
    · simp [chosen]
      omega

theorem countP_updateWhere_same {selected part : ρ → Bool} {change : ρ → ρ} (rows : List ρ)
    (kept : ∀ row, selected row = true → part (change row) = part row) :
    (updateWhere selected change rows).countP part = rows.countP part := by
  rw [updateWhere,List.countP_map]
  refine List.countP_congr fun row _ => ?_
  by_cases chosen : selected row = true
  · simp [chosen,kept row chosen]
  · simp [chosen]

/-- Collecting the keys that are not there yet lists each key once. -/
theorem foldl_distinct [DecidableEq κ] (key : ρ → κ) (rows : List ρ) {keys : List κ} (distinct : keys.Nodup) :
    (rows.foldl (fun keys row => if keys.contains (key row) then keys else keys ++ [key row]) keys).Nodup ∧
      ∀ found, found ∈ rows.foldl (fun keys row => if keys.contains (key row) then keys else keys ++ [key row]) keys ↔
        found ∈ keys ∨ ∃ row ∈ rows, key row = found := by
  induction rows generalizing keys with
  | nil => simp [distinct]
  | cons row rest ih =>
    rw [List.foldl_cons]
    by_cases old : key row ∈ keys
    · rw [if_pos (List.contains_iff_mem.mpr old)]
      refine ⟨(ih distinct).1,fun found => ((ih distinct).2 found).trans ?_⟩
      simp only [List.mem_cons,exists_eq_or_imp]
      constructor
      · exact Or.imp_right .inr
      · rintro (listed | rfl | later)
        · exact .inl listed
        · exact .inl old
        · exact .inr later
    · have longer : (keys ++ [key row]).Nodup := by
        refine List.nodup_append.mpr ⟨distinct,List.nodup_singleton _,?_⟩
        intro taken listed fresh single
        rw [List.mem_singleton.mp single]
        exact ne_of_mem_of_not_mem listed old
      rw [if_neg fun listed => old (List.contains_iff_mem.mp listed)]
      refine ⟨(ih longer).1,fun found => ((ih longer).2 found).trans ?_⟩
      rw [List.mem_append,List.mem_singleton,or_assoc,@eq_comm _ found (key row)]
      simp only [List.mem_cons,exists_eq_or_imp]

/-! ### Tables that only grow

Rows are changed in place, as a relation allows, and added under fresh keys. -/

section
variable {tag : ρ → κ} {Turns : ρ → ρ → Prop} {before mid after : List ρ}

/-- The later rows are what the earlier ones turned into, under the same tags, and new
    ones under tags not used before. -/
def Evolves (tag : ρ → κ) (Turns : ρ → ρ → Prop) (before after : List ρ) : Prop :=
  ∃ (change : ρ → ρ) (added : List ρ), after = before.map change ++ added ∧
    (∀ row ∈ before, tag (change row) = tag row ∧ Turns row (change row)) ∧
    (∀ new ∈ added, ∀ old ∈ before, tag new ≠ tag old) ∧ UniqueBy tag added

theorem Evolves.refl (still : ∀ row, Turns row row) (rows : List ρ) : Evolves tag Turns rows rows :=
  ⟨id,[],by simp,fun row _ => ⟨rfl,still row⟩,by simp,by simp [UniqueBy]⟩

theorem Evolves.trans (onward : ∀ first second third, Turns first second → Turns second third → Turns first third)
    (first : Evolves tag Turns before mid) (second : Evolves tag Turns mid after) : Evolves tag Turns before after := by
  obtain ⟨change,added,rfl,kept,fresh,distinct⟩ := first
  obtain ⟨change',added',rfl,kept',fresh',distinct'⟩ := second
  refine ⟨change' ∘ change,added.map change' ++ added',by simp,?_,?_,?_⟩
  · intro row member
    have inside : change row ∈ before.map change ++ added := List.mem_append_left _ (List.mem_map_of_mem member)
    exact ⟨(kept' _ inside).1.trans (kept row member).1,onward _ _ _ (kept row member).2 (kept' _ inside).2⟩
  · intro new member old oldIn
    rcases List.mem_append.mp member with turned | later
    · obtain ⟨row,rowIn,rfl⟩ := List.mem_map.mp turned
      rw [(kept' row (List.mem_append_right _ rowIn)).1]
      exact fresh row rowIn old oldIn
    · rw [← (kept old oldIn).1]
      exact fresh' new later _ (List.mem_append_left _ (List.mem_map_of_mem oldIn))
  · have tags : (added.map change').map tag = added.map tag := by
      rw [List.map_map]
      exact List.map_congr_left fun row rowIn => (kept' row (List.mem_append_right _ rowIn)).1
    unfold UniqueBy
    rw [List.map_append,tags]
    refine List.nodup_append.mpr ⟨distinct,distinct',?_⟩
    intro one oneIn other otherIn same
    obtain ⟨row,rowIn,rfl⟩ := List.mem_map.mp oneIn
    obtain ⟨new,newIn,rfl⟩ := List.mem_map.mp otherIn
    exact fresh' new newIn row (List.mem_append_right _ rowIn) same.symm

theorem Evolves.update (still : ∀ row, Turns row row) (selected : ρ → Bool) {change : ρ → ρ} {rows : List ρ}
    (kept : ∀ row ∈ rows, selected row = true → tag (change row) = tag row ∧ Turns row (change row)) :
    Evolves tag Turns rows (updateWhere selected change rows) := by
  refine ⟨fun row => if selected row then change row else row,[],by simp [updateWhere],?_,by simp,by simp [UniqueBy]⟩
  intro row member
  dsimp only
  split_ifs with chosen
  · exact kept row member chosen
  · exact ⟨rfl,still row⟩

theorem Evolves.insert (still : ∀ row, Turns row row) {rows : List ρ} {row : ρ}
    (free : ∀ other ∈ rows, tag other ≠ tag row) : Evolves tag Turns rows (rows ++ [row]) := by
  refine ⟨id,[row],by simp,fun row _ => ⟨rfl,still row⟩,?_,by simp [UniqueBy]⟩
  intro new member old oldIn
  rw [List.mem_singleton.mp member]
  exact (free old oldIn).symm

theorem Evolves.unique (evolves : Evolves tag Turns before after) (unique : UniqueBy tag before) : UniqueBy tag after := by
  obtain ⟨change,added,rfl,kept,fresh,distinct⟩ := evolves
  have tags : (before.map change).map tag = before.map tag := by
    rw [List.map_map]
    exact List.map_congr_left fun row member => (kept row member).1
  unfold UniqueBy
  rw [List.map_append,tags]
  refine List.nodup_append.mpr ⟨unique,distinct,?_⟩
  intro one oneIn other otherIn same
  obtain ⟨old,oldIn,rfl⟩ := List.mem_map.mp oneIn
  obtain ⟨new,newIn,rfl⟩ := List.mem_map.mp otherIn
  exact fresh new newIn old oldIn same.symm

/-- No row leaves the table. -/
theorem Evolves.stays (evolves : Evolves tag Turns before after) {old : ρ} (member : old ∈ before) :
    ∃ row ∈ after, tag row = tag old ∧ Turns old row := by
  obtain ⟨change,added,rfl,kept,-⟩ := evolves
  exact ⟨change old,List.mem_append_left _ (List.mem_map_of_mem member),kept old member⟩

/-- A later row is what an earlier one turned into, or new. -/
theorem Evolves.origin (evolves : Evolves tag Turns before after) {row : ρ} (member : row ∈ after) :
    (∃ old ∈ before, tag old = tag row ∧ Turns old row) ∨ ∀ old ∈ before, tag old ≠ tag row := by
  obtain ⟨change,added,rfl,kept,fresh,-⟩ := evolves
  rcases List.mem_append.mp member with turned | new
  · obtain ⟨old,oldIn,rfl⟩ := List.mem_map.mp turned
    exact .inl ⟨old,oldIn,(kept old oldIn).1.symm,(kept old oldIn).2⟩
  · exact .inr fun old oldIn => (fresh row new old oldIn).symm

end

/-! ### Two tables alike but for one key -/

section
variable [DecidableEq κ] {key : ρ → κ} {chosen : κ} {hide : ρ → ρ}

/-- The rows with the content of those under one key hidden. -/
def veil (key : ρ → κ) (chosen : κ) (hide : ρ → ρ) (rows : List ρ) : List ρ :=
  updateWhere (fun row => decide (key row = chosen)) hide rows

theorem veil_append (rows more : List ρ) :
    veil key chosen hide (rows ++ more) = veil key chosen hide rows ++ veil key chosen hide more := by
  simp [veil,updateWhere]

theorem veil_congr {rows others more further : List ρ} (same : veil key chosen hide rows = veil key chosen hide others)
    (added : veil key chosen hide more = veil key chosen hide further) :
    veil key chosen hide (rows ++ more) = veil key chosen hide (others ++ further) := by
  rw [veil_append,veil_append,same,added]

/-- A change that keeps the key and shows nothing of what is hidden acts alike on
    tables alike, when it selects the same of the other rows. -/
theorem veil_update {change : ρ → ρ} {left right : ρ → Bool} {rows others : List ρ}
    (hideKept : ∀ row, key (hide row) = key row) (kept : ∀ row, key (change row) = key row)
    (hidden : ∀ row, hide (change row) = hide row) (agree : ∀ row, key row ≠ chosen → left row = right row)
    (same : veil key chosen hide rows = veil key chosen hide others) :
    veil key chosen hide (updateWhere left change rows) = veil key chosen hide (updateWhere right change others) := by
  have factors : ∀ (selected : ρ → Bool), (∀ row, key row ≠ chosen → selected row = left row) → ∀ rows : List ρ,
      veil key chosen hide (updateWhere selected change rows) = (veil key chosen hide rows).map
        (fun row => if key row = chosen then row else if left row then change row else row) := by
    intro selected agrees rows
    unfold veil updateWhere
    rw [List.map_map,List.map_map]
    refine List.map_congr_left fun row _ => ?_
    simp only [Function.comp,decide_eq_true_eq]
    by_cases mine : key row = chosen
    · have turned : key (if selected row = true then change row else row) = chosen := by
        split_ifs
        · rw [kept,mine]
        · exact mine
      have blank : hide (if selected row = true then change row else row) = hide row := by
        split_ifs
        · exact hidden row
        · rfl
      rw [if_pos turned,if_pos mine,blank,if_pos ((hideKept row).trans mine)]
    · have turned : key (if selected row = true then change row else row) ≠ chosen := by
        split_ifs
        · rw [kept]
          exact mine
        · exact mine
      rw [if_neg turned,if_neg mine,if_neg mine,agrees row mine]
  rw [factors left (fun _ _ => rfl),factors right (fun row other => (agree row other).symm),same]

theorem veil_delete {selected : ρ → Bool} (kept : ∀ row, selected (hide row) = selected row) {rows others : List ρ}
    (same : veil key chosen hide rows = veil key chosen hide others) :
    veil key chosen hide (deleteWhere selected rows) = veil key chosen hide (deleteWhere selected others) := by
  have commutes : ∀ rows : List ρ,
      veil key chosen hide (deleteWhere selected rows) = deleteWhere selected (veil key chosen hide rows) := by
    intro rows
    unfold veil updateWhere deleteWhere
    rw [List.filter_map]
    refine congrArg _ (List.filter_congr fun row _ => ?_)
    simp only [Function.comp]
    split_ifs
    · rw [kept]
    · rfl
  rw [commutes,commutes,same]

/-- A table whose rows under the key have nothing to hide is its own veil. -/
theorem veil_eq_self {rows : List ρ} (bare : ∀ row ∈ rows, key row = chosen → hide row = row) :
    veil key chosen hide rows = rows := by
  unfold veil updateWhere
  refine (List.map_congr_left fun row member => ?_).trans (List.map_id rows)
  by_cases mine : key row = chosen
  · simp [mine,bare row member mine]
  · simp [mine]

end

end Lib.Tables
