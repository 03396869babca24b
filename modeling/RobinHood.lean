import RobinHood.Map.Layout
import RobinHood.Proofs.Behaviour
import RobinHood.Proofs.Chart
import RobinHood.Proofs.Index.Crowd
import RobinHood.Proofs.Index.Home
import RobinHood.Proofs.Index.Search
import RobinHood.Proofs.Map.Extend
import RobinHood.Proofs.Map.Merge
import RobinHood.Proofs.Map.Split
import RobinHood.Proofs.Map.Update
import RobinHood.Proofs.Set.Algebra
import RobinHood.Proofs.Set.Inclusion
import RobinHood.Proofs.Table.Capacity
import RobinHood.Proofs.Table.Census
import RobinHood.Proofs.Table.Layout
import RobinHood.Proofs.Table.Packed
import RobinHood.Proofs.Table.Reservation
import RobinHood.Proofs.Table.Vacancy
import RobinHood.Set.Basic
import RobinHood.Table.Layout
import RobinHood.Table.Stats
