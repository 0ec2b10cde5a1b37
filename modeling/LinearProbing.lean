import LinearProbing.AssociativeCache
import LinearProbing.Container
import LinearProbing.Hash.Choice
import LinearProbing.RecencyCache
import LinearProbing.Numeric.Single
import LinearProbing.Proofs.ExactScan
import LinearProbing.Proofs.Overflow
import LinearProbing.Proofs.WordMap.Refinement
import LinearProbing.Proofs.Unwinding
import LinearProbing.Proofs.ValueMap.Refinement
import LinearProbing.Proofs.ValueMap.Placement
import LinearProbing.Proofs.SetRefinement
import LinearProbing.Proofs.AssociativeCache.Refinement
import LinearProbing.Proofs.Capacity.ClosedForm
import LinearProbing.Proofs.RecencyCache.Refinement
import LinearProbing.Proofs.ContentEquality
import LinearProbing.Proofs.AssociativeCache.Conservation
import LinearProbing.Proofs.Tally.Refinement
import LinearProbing.Proofs.PairMap.Refinement
import LinearProbing.Proofs.Interface.Interchangeable
import LinearProbing.Proofs.RecencyCache.Conservation
import LinearProbing.Proofs.RecencyCache.History
import LinearProbing.Proofs.IterationMode.Indistinguishable
import LinearProbing.Proofs.Refusal
import LinearProbing.Proofs.Slots.Deletion
import LinearProbing.Proofs.Capacity.Growth
import LinearProbing.Proofs.Capacity.Compaction
import LinearProbing.Proofs.ValueMap.StoredKeys
import LinearProbing.Proofs.OccupiedSlots
import LinearProbing.Proofs.Rehashing
import LinearProbing.Proofs.Leftover.Containers
import LinearProbing.Proofs.Restoring.Containers
import LinearProbing.Proofs.SetAlgebra
import LinearProbing.Proofs.Iterators
import LinearProbing.Proofs.Tally.Commuting
import LinearProbing.Proofs.Hash.Balance
import LinearProbing.Proofs.Hash.Sensitivity
import LinearProbing.Proofs.Membership
import LinearProbing.Proofs.Slots.GapFilling
