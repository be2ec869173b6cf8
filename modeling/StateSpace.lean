import StateSpace.Bytes
import StateSpace.Wire.Value
import StateSpace.Wire.Error
import StateSpace.Wire.Reader
import StateSpace.Wire.Writer
import StateSpace.Wire.Codec
import StateSpace.Hash
import StateSpace.Registry.Table
import StateSpace.Registry.Basic
import StateSpace.Frontier.Deque
import StateSpace.Frontier.Basic
import StateSpace.Property
import StateSpace.Log
import StateSpace.Discoveries
import StateSpace.Model
import StateSpace.Path
import StateSpace.Search.Basic
import StateSpace.Search.Step
import StateSpace.Search.Run
import StateSpace.Search.Outcome
import StateSpace.Report
import StateSpace.Sorted
import StateSpace.Actor.Basic
import StateSpace.Actor.Network
import StateSpace.Actor.System
import StateSpace.Condition
import StateSpace.Systems.Grid
import StateSpace.Systems.Graph
import StateSpace.Systems.Rules
import StateSpace.Systems.Clocks
import StateSpace.Systems.TwoPhaseCommit
import StateSpace.Explorer.Basic
import StateSpace.Console.Numeral
import StateSpace.Console.Session
import StateSpace.Console.Programs
import StateSpace.Main
import StateSpace.Proofs.Lists
import StateSpace.Proofs.Registry.Table
import StateSpace.Proofs.Registry.Bindings
import StateSpace.Proofs.Frontier
import StateSpace.Proofs.Discoveries
import StateSpace.Proofs.Search.Transition
import StateSpace.Proofs.Search.Custody
import StateSpace.Proofs.Search.Ledger
import StateSpace.Proofs.Search.Verdicts
import StateSpace.Proofs.Search.Endings
import StateSpace.Proofs.Search.Solo
import StateSpace.Proofs.Search.Coverage
import StateSpace.Proofs.Path
import StateSpace.Proofs.Path.Replay
import StateSpace.Proofs.Path.Ancestry
import StateSpace.Proofs.Search.Lineage
import StateSpace.Proofs.Wire.Grammar
import StateSpace.Proofs.Wire.Parse
import StateSpace.Proofs.Registry.History
import StateSpace.Proofs.Systems.TwoPhase.Forms
import StateSpace.Proofs.Wire.Language
import StateSpace.Proofs.Wire.Codec
import StateSpace.Proofs.Wire.Viability
import StateSpace.Proofs.Systems.TwoPhase.Agreement
import StateSpace.Proofs.Search.Reasons
import StateSpace.Proofs.Systems.TwoPhase.Census
import StateSpace.Proofs.Systems.TwoPhase.Stances
import StateSpace.Proofs.Frontier.Crew
import StateSpace.Proofs.Frontier.Exhaustion
import StateSpace.Proofs.Sorted
import StateSpace.Proofs.Actor.Steps
import StateSpace.Proofs.Actor.Lookup
import StateSpace.Proofs.Actor.Loss
import StateSpace.Proofs.Actor.Conservation
import StateSpace.Proofs.Search.Forest
import StateSpace.Proofs.Search.Cuts
import StateSpace.Proofs.Search.Levels
import StateSpace.Proofs.Search.Shortest
import StateSpace.Proofs.Search.Alarms
import StateSpace.Proofs.Search.Termination
import StateSpace.Proofs.Search.Visitor
import StateSpace.Proofs.Search.Promptness
import StateSpace.Proofs.Search.Depths
import StateSpace.Proofs.Actor.Commutation
import StateSpace.Proofs.Wire.Session
import StateSpace.Proofs.Wire.Integers
import StateSpace.Proofs.Console.Screen
import StateSpace.Proofs.Console.Session
import StateSpace.Proofs.Frontier.Deques
import StateSpace.Proofs.Frontier.Conservation
import StateSpace.Proofs.Systems.Clocks.Descent
import StateSpace.Proofs.Systems.TwoPhase.Distances
import StateSpace.Proofs.Search.Horizon
import StateSpace.Proofs.Search.Hunt
import StateSpace.Proofs.Systems.Clocks.Relay
import StateSpace.Proofs.Discoveries.Calls
import StateSpace.Proofs.Discoveries.Contest
import StateSpace.Proofs.Discoveries.Record
import StateSpace.Proofs.Hash.Mixing
import StateSpace.Proofs.Hash.Sensitivity
import StateSpace.Proofs.Registry.Shards
import StateSpace.Proofs.Actor.Enumeration
import StateSpace.Proofs.Search.Names
