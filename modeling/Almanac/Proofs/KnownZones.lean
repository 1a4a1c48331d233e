import Almanac.Proofs.BrokenDates
import Almanac.Zone.Known
/-!
# Changes of the zones with a name

Each rule of a zone gives its transitions in order, so they are put in order all together by merging the rules
one after the other. How far apart changes are is read off the merged list.

- `Transition.merge`: two runs of transitions in one.
- `Zone.Regular`, `Zone.regular_ofRules`: what is asked of the neighbours in the merged list, and of all of it.
- `Zone.spacedBy_of_mem_known`: in every zone with a name changes are three days apart.
- `Zone.calmAtEnds_of_mem_known`: and far from the ends of time.
-/
namespace Almanac

namespace Transition

/-- Two runs of transitions in one, in the order of their instants. -/
def merge : List Transition → List Transition → List Transition
  | [], ds => ds
  | c :: cs, ds =>
    ds.takeWhile (·.instant < c.instant) ++ c :: merge cs (ds.dropWhile (·.instant < c.instant))

theorem mem_merge {c : Transition} {cs ds : List Transition} : c ∈ merge cs ds ↔ c ∈ cs ∨ c ∈ ds := by
  induction cs generalizing ds with
  | nil => simp [merge]
  | cons d cs ih =>
    have hds : c ∈ ds ↔ c ∈ ds.takeWhile (·.instant < d.instant) ∨ c ∈ ds.dropWhile (·.instant < d.instant) := by
      rw [← List.mem_append, List.takeWhile_append_dropWhile]
    rw [merge, List.mem_append, List.mem_cons, ih, List.mem_cons, hds]
    exact ⟨by rintro (h | h | h | h) <;> simp [h], by rintro ((h | h) | h | h) <;> simp [h]⟩

/-- The transitions of rules and single ones. -/
def inRuns (rules : List YearlyRule) (singles : List Transition) : List Transition :=
  rules.foldr (fun r ts => merge r.transitions ts) singles

theorem mem_inRuns {c : Transition} {rules : List YearlyRule} {singles : List Transition} :
    c ∈ inRuns rules singles ↔ c ∈ singles ∨ ∃ r ∈ rules, c ∈ r.transitions := by
  induction rules with
  | nil => simp [inRuns]
  | cons r rules ih =>
    rw [inRuns, List.foldr_cons, mem_merge, ← inRuns, ih]
    simp [or_left_comm]

end Transition

namespace Zone

/-- The transitions are among some that come three days apart, none of them within two weeks of the ends of time. -/
def Regular (z : Zone) : Prop :=
  ∃ ts : List Transition, ts.IsChain (fun c c' => c.instant + 259200 ≤ c'.instant) ∧
    (∀ c ∈ ts, Clock.firstInstant + 1209600 < c.instant ∧ c.instant ≤ Clock.lastInstant - 1209600) ∧
    ∀ c ∈ z.transitions, c ∈ ts

theorem regular_ofRules {name : String} {initial : Offset} {rules : List YearlyRule} {singles : List Transition}
    (h : (Transition.inRuns rules singles).IsChain (fun c c' => c.instant + 259200 ≤ c'.instant) ∧
      ∀ c ∈ Transition.inRuns rules singles,
        Clock.firstInstant + 1209600 < c.instant ∧ c.instant ≤ Clock.lastInstant - 1209600) :
    (ofRules name initial rules singles).Regular :=
  ⟨_, h.1, h.2, fun _ hc => Transition.mem_inRuns.2 (mem_transitions_ofRules.1 hc)⟩

theorem regular_fixed (name : String) (offset : Offset) : (fixed name offset).Regular :=
  ⟨[], .nil, fun _ hc => absurd hc List.not_mem_nil, fun _ hc => absurd hc List.not_mem_nil⟩

theorem Regular.renamed {z : Zone} (h : z.Regular) (name : String) : (z.renamed name).Regular := h

theorem regular_of_mem_known {z : Zone} (hz : z ∈ known) : z.Regular := by
  have hkyiv : kyiv.Regular := regular_ofRules (by decide +kernel)
  have hkiev : kiev.Regular := hkyiv.renamed _
  have hall : ∀ z ∈ known, z.Regular := by
    simp only [known, etcZones, europeZones, asiaZones, americaZones, africaZones, antarcticaZones,
      australiaZones, pacificZones, List.forall_mem_append, List.forall_mem_cons]
    repeat' apply And.intro
    all_goals
      first
        | with_reducible assumption
        | exact regular_ofRules (by decide +kernel)
        | exact regular_fixed _ _
        | exact fun _ h => absurd h List.not_mem_nil
  exact hall z hz

/-- Changes of the clocks of a zone with a name are three days apart. -/
theorem spacedBy_of_mem_known {z : Zone} (hz : z ∈ known) : z.SpacedBy 259200 := by
  obtain ⟨ts, hchain, -, hmem⟩ := regular_of_mem_known hz
  exact spacedBy_of_isChain_of_mem (by decide) hchain hmem

/-- And far from the ends of time. -/
theorem calmAtEnds_of_mem_known {z : Zone} (hz : z ∈ known) : z.CalmAtEnds := by
  obtain ⟨ts, -, hfar, hmem⟩ := regular_of_mem_known hz
  exact calmAtEnds_of_transitions fun c hc => hfar c (hmem c hc)

end Zone
end Almanac
