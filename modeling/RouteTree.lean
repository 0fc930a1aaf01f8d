import RouteTree.Assoc
import RouteTree.Text.Utf8
import RouteTree.Text.Percent
import RouteTree.Json
import RouteTree.Params
import RouteTree.Error
import RouteTree.Event
import RouteTree.Change
import RouteTree.Segment
import RouteTree.Pattern
import RouteTree.Path
import RouteTree.Origin.Scheme
import RouteTree.Origin.Ipv4
import RouteTree.Origin.Ipv6
import RouteTree.Origin.Host
import RouteTree.Origin.Authority
import RouteTree.Uri
import RouteTree.Key
import RouteTree.RouteValue
import RouteTree.Node.Basic
import RouteTree.Node.Insert
import RouteTree.Node.Graft
import RouteTree.Spec.Basic
import RouteTree.Router.Basic
import RouteTree.Router.Lookup
import RouteTree.Router.Mount
import RouteTree.Router.Shared
import RouteTree.Yaml.Text
import RouteTree.Yaml.Folding
import RouteTree.Yaml.Plain
import RouteTree.Yaml.Quoted
import RouteTree.Yaml.Block
import RouteTree.Yaml.Property
import RouteTree.Yaml.Token
import RouteTree.Yaml.Document
import RouteTree.Yaml.Number
import RouteTree.Yaml.Value
import RouteTree.Spec.Document
import RouteTree.Proofs.Pattern
import RouteTree.Proofs.Pattern.Grammar
import RouteTree.Proofs.Pattern.Composition
import RouteTree.Proofs.Uri.Reading
import RouteTree.Proofs.Table
import RouteTree.Proofs.Node.View
import RouteTree.Proofs.Node.Growth
import RouteTree.Proofs.Node.Mounting
import RouteTree.Proofs.Router.History
import RouteTree.Proofs.Router.Conflict
import RouteTree.Proofs.Router.Greedy
import RouteTree.Proofs.Router.Sharing
import RouteTree.Proofs.Router.Expansion
import RouteTree.Proofs.Router.UriLookup
import RouteTree.Proofs.Router.CatchAll
import RouteTree.Proofs.Router.Trail
import RouteTree.Proofs.Router.OwnExpansion
import RouteTree.Proofs.Node.Canonical
import RouteTree.Proofs.Router.Order
import RouteTree.Proofs.Node.Kept
import RouteTree.Proofs.Router.Siblings
import RouteTree.Proofs.Router.Inheritance
import RouteTree.Proofs.Router.Listing
import RouteTree.Proofs.Origin.Laws
import RouteTree.Proofs.Origin.Address
import RouteTree.Proofs.Origin.Host
import RouteTree.Proofs.Origin.Authority
import RouteTree.Proofs.Origin.Ending
import RouteTree.Proofs.Origin.FirstSlash
import RouteTree.Proofs.Origin.Rules
import RouteTree.Proofs.Origin.Normal
import RouteTree.Proofs.Uri.RoundTrip
import RouteTree.Proofs.Uri.FullPattern
import RouteTree.Proofs.Uri.Cache
import RouteTree.Proofs.Uri.Evaluation
import RouteTree.Proofs.Text.Runs
import RouteTree.Proofs.Node.Holding
import RouteTree.Proofs.Node.Places
import RouteTree.Proofs.Router.Enumeration
import RouteTree.Proofs.Router.Misses
import RouteTree.Proofs.Uri.Leading
import RouteTree.Proofs.Uri.Session
import RouteTree.Proofs.Uri.Absolute
import RouteTree.Proofs.Uri.Alone
import RouteTree.Proofs.Node.Grafting
import RouteTree.Proofs.Router.Shape
import RouteTree.Proofs.Router.RefusedGraft
import RouteTree.Proofs.Router.MountLog
