import Mathlib

/-! Finite tables: association lists with one entry for each key. -/
namespace Manvi.Encoding

/-- A finite map, newest entry first. -/
@[ext]
structure Table (κ ν : Type) where
  entries : List (κ × ν)
  unique : (entries.map Prod.fst).Nodup
  deriving Repr

namespace Table
variable {κ ν : Type}

def empty : Table κ ν := ⟨[],List.nodup_nil⟩

def keys (m : Table κ ν) : List κ := m.entries.map Prod.fst

def values (m : Table κ ν) : List ν := m.entries.map Prod.snd

def size (m : Table κ ν) : ℕ := m.entries.length

/-- The entries that meet some condition. -/
def filter (m : Table κ ν) (p : κ × ν → Bool) : Table κ ν :=
  ⟨m.entries.filter p,(List.filter_sublist.map Prod.fst).nodup m.unique⟩

theorem nodup_keys (m : Table κ ν) : m.keys.Nodup := m.unique

variable [DecidableEq κ] {m : Table κ ν} {k : κ} {v : ν}

def get (m : Table κ ν) (k : κ) : Option ν := (m.entries.find? (fun e => e.1 = k)).map Prod.snd

def erase (m : Table κ ν) (k : κ) : Table κ ν := m.filter (fun e => e.1 ≠ k)

theorem notMem_keys_erase (m : Table κ ν) (k : κ) : k ∉ (m.erase k).keys := by
  intro h
  obtain ⟨e,he,hk⟩ := List.mem_map.mp h
  have hne := (List.mem_filter.mp he).2
  simp [hk] at hne

def set (m : Table κ ν) (k : κ) (v : ν) : Table κ ν :=
  ⟨(k,v) :: (m.erase k).entries,List.nodup_cons.mpr ⟨m.notMem_keys_erase k,(m.erase k).unique⟩⟩

@[simp] theorem get_empty (k : κ) : (empty : Table κ ν).get k = none := rfl

@[simp] theorem get_set_self (m : Table κ ν) (k : κ) (v : ν) : (m.set k v).get k = some v := by
  simp [get,set]

@[simp] theorem get_erase_self (m : Table κ ν) (k : κ) : (m.erase k).get k = none := by
  simp [get,erase,filter]

theorem get_erase_of_ne (m : Table κ ν) {k k' : κ} (h : k' ≠ k) :
    (m.erase k).get k' = m.get k' := by
  simp only [get,erase,filter,List.find?_filter]
  congr 2
  funext e
  by_cases he : e.1 = k'
  · simp [he,h]
  · simp [he]

theorem get_erase (m : Table κ ν) (k k' : κ) :
    (m.erase k).get k' = if k' = k then none else m.get k' := by
  split_ifs with h
  · rw [h,get_erase_self]
  · exact get_erase_of_ne m h

theorem get_set_of_ne (m : Table κ ν) {k k' : κ} (h : k' ≠ k) (v : ν) :
    (m.set k v).get k' = m.get k' := by
  rw [← get_erase_of_ne m h]
  have hk : ¬ k = k' := fun e => h e.symm
  simp [get,set,hk]

theorem get_set (m : Table κ ν) (k k' : κ) (v : ν) :
    (m.set k v).get k' = if k' = k then some v else m.get k' := by
  split_ifs with h
  · rw [h,get_set_self]
  · exact get_set_of_ne m h v

@[simp] theorem set_set (m : Table κ ν) (k : κ) (v v' : ν) : (m.set k v).set k v' = m.set k v' := by
  simp [set,erase,filter,List.filter_filter]

@[simp] theorem get_eq_none_iff (m : Table κ ν) (k : κ) : m.get k = none ↔ k ∉ m.keys := by
  simp only [get,keys,Option.map_eq_none_iff,List.find?_eq_none,List.mem_map,decide_eq_true_eq]
  constructor
  · rintro h ⟨e,he,hk⟩
    exact h e he hk
  · intro h e he hk
    exact h ⟨e,he,hk⟩

theorem isSome_get (m : Table κ ν) (k : κ) : (m.get k).isSome = true ↔ k ∈ m.keys := by
  rw [← not_iff_not,← m.get_eq_none_iff]
  simp

theorem mem_of_get (h : m.get k = some v) : (k,v) ∈ m.entries := by
  obtain ⟨⟨k',v'⟩,hfind,rfl⟩ := Option.map_eq_some_iff.mp h
  have hk := List.find?_some hfind
  simp only [decide_eq_true_eq] at hk
  subst hk
  exact List.mem_of_find?_eq_some hfind

/-- The entry with a key is the only one. -/
theorem get_of_mem (h : (k,v) ∈ m.entries) : m.get k = some v := by
  obtain ⟨v',hv⟩ := Option.isSome_iff_exists.mp ((isSome_get m k).mpr (List.mem_map_of_mem h))
  have hsame := List.inj_on_of_nodup_map m.unique (mem_of_get hv) h rfl
  rw [hv,(Prod.mk.inj hsame).2]

theorem mem_values (h : m.get k = some v) : v ∈ m.values := List.mem_map_of_mem (mem_of_get h)

theorem exists_get_of_mem_values (h : v ∈ m.values) : ∃ k, m.get k = some v := by
  obtain ⟨⟨k,v⟩,he,rfl⟩ := List.mem_map.mp h
  exact ⟨k,get_of_mem he⟩

/-- Where no two keys have one value, no value occurs twice. -/
theorem nodup_values (hinj : ∀ k k' v, m.get k = some v → m.get k' = some v → k = k') :
    m.values.Nodup := by
  refine (List.nodup_map_iff_inj_on (List.Nodup.of_map _ m.unique)).mpr ?_
  rintro ⟨k,v⟩ he ⟨k',v'⟩ he' hv
  cases hv
  rw [hinj k k' v (get_of_mem he) (get_of_mem he')]

lemma filter_absent {es : List (κ × ν)} (h : k ∉ es.map Prod.fst) :
    es.filter (fun e => e.1 ≠ k) = es := by
  refine List.filter_eq_self.mpr ?_
  intro e he
  have hne : e.1 ≠ k := fun heq => h (heq ▸ List.mem_map_of_mem he)
  simpa using hne

theorem erase_of_none (h : m.get k = none) : m.erase k = m :=
  Table.ext (filter_absent ((get_eq_none_iff m k).mp h))

/-- A table is one of its entries and the rest. -/
theorem perm_erase (h : m.get k = some v) : m.entries.Perm ((k,v) :: (m.erase k).entries) := by
  obtain ⟨before,after,hsplit⟩ := List.append_of_mem (mem_of_get h)
  have hunique := m.unique
  rw [hsplit,List.map_append,List.map_cons] at hunique
  have hnot := (List.nodup_cons.mp (List.nodup_middle.mp hunique)).1
  rw [List.mem_append,not_or] at hnot
  have hrest : (m.erase k).entries = before ++ after := by
    change m.entries.filter _ = _
    rw [hsplit,List.filter_append,List.filter_cons_of_neg (by simp),filter_absent hnot.1,
      filter_absent hnot.2]
  rw [hrest,hsplit]
  exact List.perm_middle

/-- The sum of some measure over the values of a table. -/
def total (m : Table κ ν) (w : ν → ℕ) : ℕ := (m.values.map w).sum

omit [DecidableEq κ] in
theorem size_eq_total (m : Table κ ν) : m.size = m.total (fun _ => 1) := by
  simp [size,total,values,Function.comp_def]

theorem total_set (m : Table κ ν) (k : κ) (v : ν) (w : ν → ℕ) :
    (m.set k v).total w = w v+(m.erase k).total w := rfl

theorem total_erase (h : m.get k = some v) (w : ν → ℕ) : m.total w = w v+(m.erase k).total w :=
  (((perm_erase h).map Prod.snd).map w).sum_eq

theorem total_set_of_none (h : m.get k = none) (v : ν) (w : ν → ℕ) :
    (m.set k v).total w = m.total w+w v := by
  rw [total_set,erase_of_none h,Nat.add_comm]

theorem total_set_of_some {old : ν} (h : m.get k = some old) (v : ν) (w : ν → ℕ) :
    (m.set k v).total w+w old = m.total w+w v := by
  rw [total_set,total_erase h]
  omega

theorem size_set_of_none (h : m.get k = none) (v : ν) : (m.set k v).size = m.size+1 := by
  rw [size_eq_total,size_eq_total,total_set_of_none h]

theorem size_set_of_some {old : ν} (h : m.get k = some old) (v : ν) :
    (m.set k v).size = m.size := by
  have hset := total_set_of_some h v (fun _ => 1)
  rw [← size_eq_total,← size_eq_total] at hset
  omega

theorem size_erase_of_some (h : m.get k = some v) : (m.erase k).size+1 = m.size :=
  size_set_of_some h v

end Table
end Manvi.Encoding
