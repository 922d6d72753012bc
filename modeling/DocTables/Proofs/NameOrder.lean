import DocTables.Proofs.RegistryRuns
import Mathlib.Data.List.Sort

/-!
# The order of registrations

The bytes of a text determine it (`Bytes.ofText_inj`), so the order of names by their bytes is a strict
order in which any two names come one before the other (`Registry.nameLt_or_nameLt`).

The registrations of a registry stand in this order, each name once, whatever has been done to it
(`Registry.ordered_run`). So two registries with the same registrations have them in the same order
(`Registry.Ordered.ext`).
-/

namespace DocTables

/-! ## Bytes of texts -/

namespace Bytes

/-- The loop that gives the bytes of an array as a list, from a place on. -/
theorem toList_loop_eq (b : ByteArray) (i : Nat) (r : List UInt8) :
    ByteArray.toList.loop b i r = r.reverse ++ b.data.toList.drop i := by
  fun_induction ByteArray.toList.loop b i r with
  | case1 i r hlt ih =>
    have hlt' : i < b.data.toList.length := by rwa [Array.length_toList]
    have hget : b.get! i = b.data.toList[i] := by
      rw [Array.getElem_toList]
      exact getElem!_pos b.data i hlt
    rw [ih, List.drop_eq_getElem_cons hlt', hget, List.reverse_cons, List.append_assoc,
      List.singleton_append]
  | case2 i r hle =>
    have hle' : b.data.toList.length ≤ i := by
      rw [Array.length_toList]
      exact Nat.le_of_not_lt hle
    rw [List.drop_eq_nil_of_le hle', List.append_nil]

theorem ofText_inj {s t : String} : ofText s = ofText t ↔ s = t := by
  have heq : ∀ s : String, ofText s = s.toByteArray.data.toList := fun s =>
    toList_loop_eq s.toByteArray 0 []
  rw [heq, heq, Array.toList_inj, ← ByteArray.ext_iff, String.toByteArray_inj]

end Bytes

namespace Registry

variable {text : DefinitionText} {medium : Medium} {r r' : Registry} {op : Operation}
  {ops : List Operation} {a b c : String}

/-! ## The order of names -/

theorem not_nameLt_self (a : String) : nameLt a a = false :=
  decide_eq_false (List.lt_irrefl _)

theorem nameLt_trans (h : nameLt a b) (h' : nameLt b c) : nameLt a c :=
  decide_eq_true (List.lt_trans (of_decide_eq_true h) (of_decide_eq_true h'))

theorem nameLt_or_nameLt (h : a ≠ b) : nameLt a b ∨ nameLt b a := by
  by_contra hne
  simp only [nameLt, not_or, decide_eq_true_eq, List.not_lt] at hne
  exact h (Bytes.ofText_inj.mp (List.le_antisymm hne.2 hne.1))

/-! ## The order of registrations -/

theorem mem_insertRegistration {new n : Registration} {ns : List Registration} :
    n ∈ insertRegistration new ns ↔ n = new ∨ n ∈ ns := by
  induction ns with
  | nil => simp [insertRegistration]
  | cons m ns ih =>
    rw [insertRegistration]
    split
    · rw [List.mem_cons]
    · rw [List.mem_cons, ih, List.mem_cons]
      tauto

/-- A registration with a new name is inserted in its place. -/
theorem pairwise_insertRegistration {new : Registration} {ns : List Registration}
    (h : ns.Pairwise fun m n => nameLt m.name n.name) (hfresh : ∀ n ∈ ns, n.name ≠ new.name) :
    (insertRegistration new ns).Pairwise fun m n => nameLt m.name n.name := by
  induction ns with
  | nil => exact List.pairwise_singleton _ _
  | cons m ns ih =>
    rw [List.pairwise_cons] at h
    rw [List.forall_mem_cons] at hfresh
    rw [insertRegistration]
    split
    case isTrue hlt =>
      refine List.pairwise_cons.mpr ⟨List.forall_mem_cons.mpr ⟨hlt, ?_⟩, List.pairwise_cons.mpr h⟩
      exact fun n hn => nameLt_trans hlt (h.1 n hn)
    case isFalse hlt =>
      refine List.pairwise_cons.mpr ⟨fun n hn => ?_, ih h.2 hfresh.2⟩
      rcases mem_insertRegistration.mp hn with rfl | hn
      · exact (nameLt_or_nameLt hfresh.1).resolve_right hlt
      · exact h.1 n hn

/-- The registrations stand in the order of their names, each name once. -/
def Ordered (r : Registry) : Prop :=
  r.registrations.Pairwise fun m n => nameLt m.name n.name

/-- The order says in which order registrations stand. -/
theorem Ordered.ext (h : r.Ordered) (h' : r'.Ordered)
    (hmem : ∀ n, n ∈ r.registrations ↔ n ∈ r'.registrations) :
    r.registrations = r'.registrations := by
  have hirrefl : Std.Irrefl fun m n : Registration => nameLt m.name n.name :=
    ⟨fun n => by simp [not_nameLt_self]⟩
  have hantisymm : Std.Antisymm fun m n : Registration => nameLt m.name n.name :=
    ⟨fun m n hlt hlt' => by simpa [not_nameLt_self] using nameLt_trans hlt hlt'⟩
  exact h.eq_of_mem_iff h' hmem

theorem Ordered.of_leads (h : r.Ordered) (hleads : Leads text r op r') : r'.Ordered := by
  cases hleads with
  | addInfo hok =>
    obtain ⟨hnone, -, rfl⟩ := addInfo_eq_ok_iff.mp hok
    exact pairwise_insertRegistration h (by simpa [registration?] using hnone)
  | updateInfo hok =>
    obtain ⟨-, -, -, rfl⟩ := updateInfo_eq_ok_iff.mp hok
    refine List.pairwise_map.mpr (h.imp fun hlt => ?_)
    split_ifs <;> exact hlt
  | addSchema hok =>
    obtain ⟨-, -, -, rfl⟩ := addSchema_eq_ok_iff.mp hok
    exact h
  | saveDraft hok =>
    obtain ⟨-, -, rfl⟩ := saveDraft_eq_ok_iff.mp hok
    exact h
  | publish hok =>
    obtain ⟨-, -, -, -, -, rfl⟩ := publish_eq_ok_iff.mp hok
    exact h
  | reopen => exact h

/-- Every run that begins with the empty registry keeps the registrations in order. -/
theorem ordered_run (text : DefinitionText) (hmedium : medium = .file ∨ .reopen ∉ ops) :
    (empty.run text medium ops).2.Ordered :=
  log_of_leads (P := fun _ r => r.Ordered) hmedium (fun h hleads => h.of_leads hleads) .nil

end Registry

end DocTables
