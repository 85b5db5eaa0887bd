import Tempura.Routing
import Tempura.System

namespace Tempura
open Base
set_option autoImplicit true

/-- The text of the last checkpoint in the log. -/
def lastCheckpoint (log : List StoreWrite) : Option GoString :=
  log.foldl (fun acc w =>
    match w with
    | .put .checkpoint _ byteData => some byteData
    | _ => acc) none

/-- A write under the registry key by a checkpoint, or a write of a mapping under another key. -/
inductive Clean : StoreWrite → Prop
  | checkpoint (byteData : GoString) : Clean (.put .checkpoint registryKey byteData)
  | put {w : GoString} (virtual physNs : GoString) (hw : w ≠ registryKey) :
      Clean (.put (.tenant virtual) w physNs)
  | delete {w : GoString} (hw : w ≠ registryKey) : Clean (.delete w)

theorem Cause.clean {lib : External} {s : Proxy} (h : Cause lib s e w)
    (he : ¬ e.Names lib registryKey) : Clean w := by
  have hkey (key : GoString) (hk : key = registryKey → e.Names lib registryKey) :
      key ≠ registryKey := fun heq => he (hk heq)
  cases h with
  | resolve hw hmiss hv => exact .put _ _ (hkey _ (fun heq => heq ▸ hw))
  | complete hw hc => exact .delete (hkey _ (fun heq => heq ▸ hw))
  | task hv ht hne => exact .put _ _ (hkey _ (fun heq => ⟨_, _, _, ht, heq⟩))
  | checkpoint hm => exact .checkpoint _

theorem Audited.clean {lib : External} (h : Run (Step lib) start es a)
    (hes : ∀ e ∈ es, ¬ e.Names lib registryKey) : ∀ w ∈ a.log, Clean w := by
  apply h.invariant (I := fun a => ∀ w ∈ a.log, Clean w) nofun hes
  intro a e a' hlog he hs w hw
  obtain ⟨_, rfl⟩ := hs
  cases List.mem_append.mp hw with
  | inl hold => exact hlog w hold
  | inr hnew => exact (cause_of_mem_writes e hnew).clean he

theorem latest_registryKey (log : List StoreWrite) (h : ∀ w ∈ log, Clean w) :
    (latest registryKey log).map (·.2) = lastCheckpoint log := by
  induction log using List.reverseRecOn with
  | nil => rfl
  | append_singleton log w ih =>
    have hlog := ih (fun w' hw' => h w' (List.mem_append_left _ hw'))
    have hw := h w (List.mem_append_right _ List.mem_cons_self)
    rw [latest_snoc, lastCheckpoint, List.foldl_append]
    cases hw with
    | checkpoint byteData => rfl
    | put virtual physNs hw =>
      rw [if_neg]
      · exact hlog
      · exact Ne.symm hw
    | delete hw =>
      rw [if_neg]
      · exact hlog
      · exact Ne.symm hw

/-- Unless the registry key is used as a workflow id, a restart reads the last checkpoint, and what
is read for a workflow id was put there as its mapping. -/
theorem store_separation (lib : External) (es : List Event) (a : Audited)
    (hrun : Run (Audited.Step lib) Audited.start es a)
    (hes : ∀ e ∈ es, ¬ e.Names lib registryKey) :
    a.proxy.db.lookup registryKey = lastCheckpoint a.log ∧
    ∀ w, w ≠ registryKey → Mappings.stored a.proxy.db w ≠ [] →
      ∃ virtual, .put (.tenant virtual) w (Mappings.stored a.proxy.db w) ∈ a.log := by
  have hclean := Audited.clean hrun hes
  have hlookup := Audited.lookup_eq hrun
  refine ⟨(hlookup registryKey).trans (latest_registryKey a.log hclean), ?_⟩
  intro w hw hne
  have hl := hlookup w
  rw [Mappings.lookup_of_stored rfl hne] at hl
  obtain ⟨⟨tag, value⟩, ht, hvalue⟩ := Option.map_eq_some_iff.mp hl.symm
  have hmem := mem_of_latest ht
  cases hclean _ hmem with
  | checkpoint byteData => exact absurd rfl hw
  | put virtual physNs hw' => exact ⟨virtual, hvalue ▸ hmem⟩

def ordersEvents : List Event :=
  [.registry (.create (lit "orders")),
    .registry (.call (lit "orders") (.add orders1)),
    .registry (.call (lit "orders") (.add orders2)),
    .registry (.call (lit "orders") (.remove orders1)),
    .checkpoint]

def startW1 : Event := .request .startWorkflowExecution ⟨lit "orders", lit "w1", []⟩

theorem ordersEvents_enabled {lib : External} {e : Event} (he : e ∈ ordersEvents) (s : Proxy) :
    e.Enabled lib s := by
  simp only [ordersEvents, List.mem_cons, List.not_mem_nil, or_false] at he
  rcases he with rfl | rfl | rfl | rfl | rfl <;> trivial

theorem ordersEvents_concat_enabled (hlast : ∀ s, last.Enabled sampleExternal s) :
    ∀ e ∈ ordersEvents ++ [last], ∀ s, e.Enabled sampleExternal s := by
  intro e he s
  cases List.mem_append.mp he with
  | inl hmem => exact ordersEvents_enabled hmem s
  | inr hmem =>
    rw [List.mem_singleton.mp hmem]
    exact hlast s

theorem store_separation_orders :
    let a := (ordersEvents ++ [startW1]).foldl (Audited.next sampleExternal) Audited.start
    a.proxy.db.lookup registryKey = lastCheckpoint a.log ∧
      lastCheckpoint a.log = some ordersText := by
  intro a
  have hrun : Run (Audited.Step sampleExternal) Audited.start (ordersEvents ++ [startW1]) a := by
    apply Audited.run_foldl
    exact ordersEvents_concat_enabled (fun _ => trivial)
  refine ⟨(store_separation sampleExternal _ a hrun ?_).1, by decide +kernel⟩
  intro e he
  simp only [ordersEvents, List.cons_append, List.nil_append, List.mem_cons, List.not_mem_nil,
    or_false] at he
  rcases he with rfl | rfl | rfl | rfl | rfl | rfl
  · exact id
  · exact id
  · exact id
  · exact id
  · exact id
  · intro hname
    exact absurd (Outcome.ok.inj hname) (by decide)

/-- A completed workflow whose id is the registry key takes the checkpoint with it. -/
theorem completion_deletes_checkpoint :
    ¬ ∀ (lib : External) (es : List Event) (a : Audited),
      Run (Audited.Step lib) Audited.start es a →
      a.proxy.db.lookup registryKey = lastCheckpoint a.log := by
  intro hall
  have hrun := @Audited.run_foldl sampleExternal Audited.start (ordersEvents ++
    [.request .respondWorkflowTaskCompleted
      ⟨lit "orders", [], registryKey, [⟨.completeWorkflowExecution, []⟩], []⟩])
    (ordersEvents_concat_enabled (fun _ => by trivial))
  exact absurd (hall _ _ _ hrun) (by decide +kernel)

end Tempura
